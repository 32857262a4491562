import AssetEmbed.Proofs.FileSystem.Following

/-!
# Normalizing — where normal forms lead through links

In the normal form of a path each `..` takes back the name before it.  The path itself goes up from where that name
leads, which for a link is elsewhere.  So the normal form leads to where the path leads, unless a `..` takes back the
name of a link; it passes no more links than the path, and is no longer.
-/

namespace AssetEmbed

/-! ## 1. Normal forms as texts -/

namespace Path

/-- From a root, the names that are left stand in the order that they had. -/
theorem resolveNames_sublist (done ns : List Text) :
    (resolveNames true done ns).Sublist (done.reverse ++ ns) := by
  induction ns generalizing done with
  | nil => rw [resolveNames_nil, List.append_nil]
  | cons n ns ih =>
    by_cases hn : n = parentName
    · subst hn
      cases done with
      | nil =>
        rw [resolveNames_parent_nil, if_pos rfl]
        exact (ih []).trans (List.sublist_cons_self _ _)
      | cons d ds =>
        rw [resolveNames_parent_cons]
        split
        · simpa using ih (parentName :: d :: ds)
        -- both the `..` and the name that it takes back are left out
        · refine (ih ds).trans ?_
          rw [List.reverse_cons, List.append_assoc]
          exact (List.Sublist.refl _).append (List.sublist_append_right [d, parentName] ns)
    · rw [resolveNames_of_ne hn]
      simpa using ih (n :: done)

theorem exists_eq_rootOf_append {path : Text} (h : isAbsolute path = true) :
    ∃ s, path = rootOf path ++ s ∧ names s = names path := by
  have hslash : ∃ s, path = '/' :: s := by
    cases path with
    | nil => cases h
    | cons c s => exact ⟨s, by rw [show c = '/' by simpa [isAbsolute] using h]⟩
  obtain ⟨s, rfl⟩ := hslash
  unfold rootOf
  rw [h]
  simp only [Bool.not_true, Bool.false_eq_true, if_false]
  split
  · rename_i hdouble
    rw [Bool.and_eq_true] at hdouble
    obtain ⟨t, ht⟩ := List.isPrefixOf_iff_prefix.1 hdouble.1
    obtain rfl : '/' :: t = s := List.tail_eq_of_cons_eq ht
    exact ⟨t, rfl, by rw [names_cons_slash, names_cons_slash]⟩
  · exact ⟨s, rfl, (names_cons_slash s).symm⟩

theorem rootOf_ne_nil {path : Text} (h : isAbsolute path = true) : rootOf path ≠ [] := by
  unfold rootOf
  rw [h]
  simp only [Bool.not_true, Bool.false_eq_true, if_false]
  split <;> exact List.cons_ne_nil _ _

theorem normalize_eq_rootOf_append {path : Text} (h : isAbsolute path = true) :
    normalize path = rootOf path ++ Text.joinWith '/' (resolveNames true [] (names path)) := by
  unfold normalize
  rw [h, ofNames_eq_append (List.append_ne_nil_of_left_ne_nil (rootOf_ne_nil h) _)]

theorem rootOf_normalize {path : Text} (h : isAbsolute path = true) : rootOf (normalize path) = rootOf path := by
  have hrelative : isAbsolute (Text.joinWith '/' (resolveNames true [] (names path))) = false := by
    have hhead := joinWith_head fun n hn => (isProper_of_mem_resolveNames_names path n hn).1
    simpa [isAbsolute] using hhead
  have hjoin : normalize path = join (rootOf path) (Text.joinWith '/' (resolveNames true [] (names path))) := by
    rw [normalize_eq_rootOf_append h, join_of_ne_nil (rootOf_ne_nil h) hrelative, if_pos]
    rcases rootOf_eq path with hroot | hroot | hroot
    · exact absurd hroot (rootOf_ne_nil h)
    · rw [hroot]
      rfl
    · rw [hroot]
      rfl
  rw [hjoin, rootOf_join hrelative]
  rcases rootOf_eq path with hroot | hroot | hroot <;> rw [hroot] <;> rfl

theorem normalize_normalize {path : Text} (h : isAbsolute path = true) :
    normalize (normalize path) = normalize path := by
  have hproper := isProper_of_mem_resolveNames_names path
  rw [normalize_eq_rootOf_append (isAbsolute_normalize h), rootOf_normalize h, names_normalize h,
    resolveNames_proper fun n hn => (hproper n hn).2, List.reverse_nil, List.nil_append,
    ← normalize_eq_rootOf_append h]

theorem normalize_join_normalize {base : Text} (h : isAbsolute base = true) (path : Text) :
    normalize (join (normalize base) path) = normalize (join base path) := by
  by_cases hpath : isAbsolute path = true
  · rw [join_of_isAbsolute hpath, join_of_isAbsolute hpath]
  rw [Bool.not_eq_true] at hpath
  have hnormal := isAbsolute_normalize h
  have hproper := isProper_of_mem_resolveNames_names base
  rw [normalize_eq_rootOf_append (isAbsolute_join hnormal path), normalize_eq_rootOf_append (isAbsolute_join h path),
    rootOf_join hpath, rootOf_join hpath, rootOf_normalize h, names_join hpath, names_join hpath, names_normalize h,
    resolveNames_append, resolveNames_append, resolveNames_proper fun n hn => (hproper n hn).2]
  rfl

end Path

namespace FileSystem

theorem byteLength_joinWith_le {ns ms : List Text} (h : ns.Sublist ms) :
    byteLength (Text.joinWith '/' ns) ≤ byteLength (Text.joinWith '/' ms) := by
  -- along the names that are left out and those that stay
  induction h with
  | slnil => exact Nat.le_refl _
  | @cons ns ms m _ ih =>
    refine ih.trans ?_
    cases ms with
    | nil => exact Nat.zero_le _
    | cons m' ms =>
      rw [Text.joinWith_cons_cons, byteLength_append]
      show _ ≤ _ + (('/' : Char).utf8Size + byteLength (Text.joinWith '/' (m' :: ms)))
      omega
  | @cons_cons ns ms m hsub ih =>
    -- a slash goes with every name but the last one, which may be another one among the fewer names
    cases ns with
    | nil =>
      cases ms with
      | nil => exact Nat.le_refl _
      | cons m' ms =>
        rw [Text.joinWith_cons_cons, byteLength_append]
        exact Nat.le_add_right _ _
    | cons n ns =>
      obtain ⟨m', ms, rfl⟩ := List.exists_cons_of_ne_nil (List.ne_nil_of_mem (hsub.subset List.mem_cons_self))
      rw [Text.joinWith_cons_cons, Text.joinWith_cons_cons, byteLength_append, byteLength_append]
      exact Nat.add_le_add_left (Nat.add_le_add_left ih _) _

theorem byteLength_joinWith_names_le {ns : List Text} {s : Text} (h : ns.Sublist (Path.names s)) :
    byteLength (Text.joinWith '/' ns) ≤ byteLength s := by
  have hle := byteLength_joinWith_le (h.trans (List.filter_sublist : (Path.names s).Sublist (Text.splitOn '/' s)))
  rwa [Text.joinWith_splitOn] at hle

theorem byteLength_normalize_le {path : Text} (h : Path.isAbsolute path = true) :
    byteLength (Path.normalize path) ≤ byteLength path := by
  obtain ⟨s, hpath, hnames⟩ := Path.exists_eq_rootOf_append h
  have hsub : (Path.resolveNames true [] (Path.names path)).Sublist (Path.names s) := by
    rw [hnames]
    exact Path.resolveNames_sublist [] _
  conv_rhs => rw [hpath]
  rw [Path.normalize_eq_rootOf_append h, byteLength_append, byteLength_append]
  exact Nat.add_le_add_left (byteLength_joinWith_names_le hsub) _

/-- The path of a place is no longer than an absolute path that spells its names in their order. -/
theorem byteLength_path_le {path : Text} (h : Path.isAbsolute path = true) {place : Place}
    (hplace : place.Sublist (Path.names path)) : byteLength (Place.path place) ≤ byteLength path := by
  obtain ⟨s, hpath, hnames⟩ := Path.exists_eq_rootOf_append h
  have hle := byteLength_joinWith_names_le (hnames ▸ hplace)
  have hroot : 1 ≤ byteLength (Path.rootOf path) := by
    rcases Path.rootOf_eq path with hroot | hroot | hroot
    · exact absurd hroot (Path.rootOf_ne_nil h)
    · rw [hroot]
      decide
    · rw [hroot]
      decide
  rw [hpath, byteLength_append]
  show ('/' : Char).utf8Size + byteLength (Text.joinWith '/' place) ≤ _
  exact Nat.add_le_add hroot hle

variable {fs : FileSystem} {links left left' : Nat} {here mid place place' : Place} {name path : Text}
  {segs more : List Text}

/-! ## 2. Ways in parts -/

theorem Step.add {links' : Nat} {lead : List Text} (h : fs.Step here name links links' place lead) (n : Nat) :
    fs.Step here name (links + n) (links' + n) place lead := by
  cases h with
  | on hleads => exact .on hleads
  | follow hname hdown hshort hlink =>
    rw [Nat.add_right_comm]
    exact .follow hname hdown hshort hlink

theorem Follows.add (h : fs.Follows links here segs left mid) (n : Nat) :
    fs.Follows (links + n) here segs (left + n) mid := by
  induction h with
  | nil => exact .nil
  | cons hhere hstep _ ih => exact .cons hhere (hstep.add n) ih

theorem Follows.append (h : fs.Follows links here segs left mid) (h' : fs.Follows left mid more left' place) :
    fs.Follows links here (segs ++ more) left' place := by
  induction h with
  | nil => exact h'
  | cons hhere hstep _ ih =>
    rw [List.cons_append]
    refine .cons hhere hstep ?_
    rw [← List.append_assoc]
    exact ih h'

theorem Follows.split (h : fs.Follows links here (segs ++ more) left place) :
    ∃ left' mid, fs.Follows links here segs left' mid ∧ fs.Follows left' mid more left place := by
  generalize hall : segs ++ more = all at h
  induction h generalizing segs with
  | nil =>
    obtain ⟨rfl, rfl⟩ := List.append_eq_nil_iff.1 hall
    exact ⟨_, _, .nil, .nil⟩
  | @cons links links' left here next place name lead all hhere hstep hrest ih =>
    cases segs with
    | nil =>
      rw [List.nil_append] at hall
      exact ⟨links, here, .nil, hall ▸ .cons hhere hstep hrest⟩
    | cons n segs =>
      obtain ⟨rfl, rfl⟩ := List.cons.inj hall
      obtain ⟨left', mid, hfirst, hmore⟩ := ih (List.append_assoc lead segs more)
      exact ⟨left', mid, .cons hhere hstep hfirst, hmore⟩

theorem Leads.follows (h : fs.Leads here name place) (hhere : fs.node? here = some .directory) :
    fs.Follows links here [name] links place :=
  .cons hhere (.on h) .nil

theorem Follows.eq_of_skip (h : fs.Follows links here [name] left place) (hskip : name = [] ∨ name = ['.']) :
    left = links ∧ place = here := by
  cases h with
  | cons hhere hstep hrest =>
    cases hstep with
    | follow hname => exact absurd hskip hname
    | on hleads =>
      cases hrest
      cases hleads with
      | skip => exact ⟨rfl, rfl⟩
      | up hparent =>
        subst hparent
        exact absurd hskip (by decide)
      | down hname => exact absurd hskip hname

theorem Follows.eq_of_parent (h : fs.Follows links here [Path.parentName] left place) :
    fs.node? here = some .directory ∧ left = links ∧ place = here.dropLast := by
  cases h with
  | cons hhere hstep hrest =>
    cases hstep with
    | follow _ hdown => exact absurd rfl hdown
    | on hleads =>
      cases hrest
      cases hleads with
      | skip hskip => exact absurd hskip (by decide)
      | up => exact ⟨hhere, rfl, rfl⟩
      | down _ hdown => exact absurd rfl hdown

/-- A way that ends in a name other than that of a link goes through the directory above its end. -/
theorem Follows.dropLast (h : fs.Follows links here (segs ++ [name]) left place) (hname : Path.IsProper name)
    (hnone : ∀ left mid target, fs.Follows links here segs left mid → byteLength name ≤ maxNameBytes →
      fs.node? (mid ++ [name]) ≠ some (.link target)) : fs.Follows links here segs left place.dropLast := by
  obtain ⟨left', mid, hsegs, hlast⟩ := h.split
  cases hlast with
  | cons hhere hstep hrest =>
    cases hstep with
    | follow _ _ hshort hlink => exact absurd hlink (hnone _ _ _ hsegs hshort)
    | on hleads =>
      cases hrest
      cases hleads with
      | skip hskip => exact absurd hskip (not_or.2 ⟨hname.1.1, hname.1.2.1⟩)
      | up hparent => exact absurd hparent hname.2
      | down =>
        rw [List.dropLast_concat]
        exact hsegs

/-- Names that are skipped can be left out of a way. -/
theorem Follows.leading (h : fs.Follows links here segs left place) :
    fs.Follows links here (Path.leading segs) left place := by
  induction segs generalizing links here with
  | nil => exact h
  | cons name segs ih =>
    obtain ⟨left', mid, hname, hrest⟩ := Follows.split (show fs.Follows links here ([name] ++ segs) left place from h)
    by_cases hskip : name = [] ∨ name = ['.']
    · obtain ⟨rfl, rfl⟩ := hname.eq_of_skip hskip
      rw [Path.leading_cons_of_skip hskip]
      exact ih hrest
    · rw [Path.leading_cons_of_ne hskip]
      exact hname.append (ih hrest)

/-- Names that are skipped can be put into a way before its last name. -/
theorem Follows.of_leading (h : fs.Follows links here (Path.leading segs) left place) (hend : Path.EndsInName segs) :
    fs.Follows links here segs left place := by
  induction segs generalizing links here with
  | nil => exact h
  | cons name segs ih =>
    by_cases hskip : name = [] ∨ name = ['.']
    · have hne : segs ≠ [] := by
        rintro rfl
        exact hend name rfl hskip
      rw [Path.endsInName_cons hne] at hend
      rw [Path.leading_cons_of_skip hskip] at h
      -- what is skipped is skipped in a directory, since a name follows
      obtain ⟨first, rest, hleading⟩ := List.exists_cons_of_ne_nil (hend.leading_ne_nil hne)
      have hhere : fs.node? here = some .directory := by
        rw [hleading] at h
        cases h with
        | cons hhere _ _ => exact hhere
      exact .cons hhere (.on (.skip hskip)) (ih h hend)
    · rw [Path.leading_cons_of_ne hskip] at h
      obtain ⟨left', mid, hname, hrest⟩ :=
        Follows.split (show fs.Follows links here ([name] ++ Path.leading segs) left place from h)
      refine hname.append (ih hrest fun n hn => hend n ?_)
      cases segs with
      | nil => cases hn
      | cons next segs => exact hn

theorem isFile_of_names_eq {path path' : Text} (habsolute : Path.isAbsolute path = true)
    (habsolute' : Path.isAbsolute path' = true) (hnames : Path.names path = Path.names path')
    (hend : Path.EndsInName (Text.splitOn '/' path')) (hlength : byteLength path' ≤ maxPathBytes)
    (hfile : fs.isFile path = true) : fs.isFile path' = true := by
  obtain ⟨-, place, bytes, hleads, hnode⟩ := (isFile_iff (ne_nil_of_isAbsolute habsolute)).1 hfile
  refine (isFile_iff (ne_nil_of_isAbsolute habsolute')).2 ⟨hlength, place, bytes, ?_, hnode⟩
  rw [leadsTo_iff_walkNames, Path.join_of_isAbsolute habsolute, walkNames_eq_taken] at hleads
  obtain ⟨left, hfollows⟩ := hleads
  have hway : fs.Follows maxLinks [] (Path.names path') left place := hnames ▸ hfollows.leading
  rw [leadsTo_iff_walkNames, Path.join_of_isAbsolute habsolute', walkNames_eq_taken]
  exact ⟨left, hway.of_leading hend⟩

/-! ## 3. Taking names back -/

/-- Whether a `..` of a path takes back the name of a link. -/
def TakesBackLink (fs : FileSystem) (path : Text) : Prop :=
  ∃ before after, Path.names path = before ++ Path.parentName :: after ∧
    (fs.linkTarget? (Place.path (Path.resolveNames true [] before))).isSome = true

/-- Names lead from the root to where those are left of which none is taken back, if no name that is taken back is that
of a link. -/
theorem Follows.resolveNames (h : fs.Follows links [] segs left place) (hnames : ∀ n ∈ segs, Path.IsName n)
    (hback : ∀ before after above name, segs = before ++ Path.parentName :: after →
      Path.resolveNames true [] before = above ++ [name] → ∀ left mid target, fs.Follows links [] above left mid →
        byteLength name ≤ maxNameBytes → fs.node? (mid ++ [name]) ≠ some (.link target)) :
    ∃ left', left ≤ left' ∧ fs.Follows links [] (Path.resolveNames true [] segs) left' place := by
  -- from the end, since a `..` takes back what the names before it come to
  induction segs using List.reverseRecOn generalizing left place with
  | nil => exact ⟨left, Nat.le_refl _, h⟩
  | append_singleton segs name ih =>
    obtain ⟨left₁, mid, hfirst, hlast⟩ := h.split
    have hsegs : ∀ n ∈ segs, Path.IsName n := fun n hn => hnames n (List.mem_append_left _ hn)
    obtain ⟨left₂, hle, hresolved⟩ := ih hfirst hsegs fun before after above n heq =>
      hback before (after ++ [name]) above n (by rw [heq, List.append_assoc, List.cons_append])
    have hproper : ∀ n ∈ Path.resolveNames true [] segs, Path.IsProper n :=
      Path.isProper_of_mem_resolveNames nofun hsegs
    rw [Path.resolveNames_append]
    by_cases hname : name = Path.parentName
    · subst hname
      obtain ⟨-, rfl, rfl⟩ := hlast.eq_of_parent
      rcases List.eq_nil_or_concat' (Path.resolveNames true [] segs) with hnil | ⟨above, last, hconcat⟩
      · -- above the root is the root
        rw [hnil] at hresolved ⊢
        cases hresolved
        exact ⟨links, hle, .nil⟩
      -- going up from a name that is no link leads back to where that name was followed from
      · have hlastProper := hproper last (hconcat ▸ List.mem_append_right _ (List.mem_singleton_self _))
        have hresolve : Path.resolveNames true (Path.resolveNames true [] segs).reverse [Path.parentName] = above := by
          rw [hconcat, List.reverse_append, List.reverse_singleton, List.singleton_append,
            Path.resolveNames_parent_cons, if_neg hlastProper.2, Path.resolveNames_nil, List.reverse_reverse]
        rw [hresolve]
        exact ⟨left₂, hle, (hconcat ▸ hresolved).dropLast hlastProper fun left up target habove =>
          hback segs [] above last rfl hconcat left up target habove⟩
    · obtain ⟨n, rfl⟩ := Nat.exists_eq_add_of_le hle
      rw [Path.resolveNames_of_ne hname, Path.resolveNames_nil, List.reverse_cons, List.reverse_reverse]
      exact ⟨left + n, Nat.le_add_right _ _, hresolved.append (hlast.add n)⟩

theorem linkTarget?_path (hplace : Place.IsProper (place ++ [name]))
    (hlength : byteLength (Place.path (place ++ [name])) ≤ maxPathBytes)
    (hfollows : fs.Follows maxLinks [] place left mid) (hshort : byteLength name ≤ maxNameBytes) {target : Text}
    (hlink : fs.node? (mid ++ [name]) = some (.link target)) :
    fs.linkTarget? (Place.path (place ++ [name])) = some target := by
  have hroot : fs.node? [] = some .directory := rfl
  have hspot : fs.locate false (Place.path (place ++ [name])) = .ok (.taken (mid ++ [name])) := by
    rw [locate_eq_walkNames (by simp [Place.path]) hlength, Path.join_of_isAbsolute rfl, splitOn_path hplace,
      if_neg (by simp), Leads.walkNames_eq (.skip (.inl rfl)) hroot,
      hfollows.walkNames_append (.inl (List.cons_ne_nil _ _))]
    have hname := hplace name (List.mem_append_right _ (List.mem_singleton_self _))
    exact walkNames_of_node? (fun n hn => by rwa [List.mem_singleton.1 hn])
      (List.forall_mem_singleton.2 hshort) hlink fun _ _ => rfl
  obtain ⟨e, he, hnode⟩ := Option.map_eq_some_iff.1 hlink
  unfold linkTarget?
  rw [hspot]
  dsimp only
  rw [he]
  cases e <;> cases hnode
  rfl

/-- A `..` takes back the name of a link if the names that are left before it lead to a link. -/
theorem takesBackLink_of_follows (habsolute : Path.isAbsolute path = true) (hlength : byteLength path ≤ maxPathBytes)
    {before after above : List Text} {target : Text} (hnames : Path.names path = before ++ Path.parentName :: after)
    (hleft : Path.resolveNames true [] before = above ++ [name]) (habove : fs.Follows maxLinks [] above left mid)
    (hshort : byteLength name ≤ maxNameBytes) (hlink : fs.node? (mid ++ [name]) = some (.link target)) :
    fs.TakesBackLink path := by
  refine ⟨before, after, hnames, ?_⟩
  have hproper : Place.IsProper (above ++ [name]) := by
    rw [← hleft]
    refine Path.isProper_of_mem_resolveNames nofun fun n hn => ?_
    exact Path.isName_of_mem_names (hnames ▸ List.mem_append_left _ hn)
  have hsub : (above ++ [name]).Sublist (Path.names path) := by
    rw [← hleft, hnames]
    exact (Path.resolveNames_sublist [] before).trans (List.sublist_append_left before _)
  rw [hleft, linkTarget?_path hproper ((byteLength_path_le habsolute hsub).trans hlength) habove hshort hlink]
  rfl

theorem Follows.rootOf_append (habsolute : Path.isAbsolute path = true) {s : Text}
    (h : fs.Follows links [] (Text.splitOn '/' s) left place) :
    fs.Follows links [] (Text.splitOn '/' (Path.rootOf path ++ s)) left place := by
  have hroot : fs.node? [] = some .directory := rfl
  have hskip : fs.Follows links [] [[]] links [] := Leads.follows (.skip (.inl rfl)) hroot
  have hone : ∀ t, Text.splitOn '/' (['/'] ++ t) = [[]] ++ Text.splitOn '/' t := Text.splitOn_append '/' []
  rcases Path.rootOf_eq path with hpath | hpath | hpath
  · exact absurd hpath (Path.rootOf_ne_nil habsolute)
  · rw [hpath, hone]
    exact hskip.append h
  · have htwo : ∀ t : Text, ['/', '/'] ++ t = ['/'] ++ (['/'] ++ t) := fun _ => rfl
    rw [hpath, htwo, hone, hone]
    exact hskip.append (hskip.append h)

/-- The normal form of a path to a file leads to that file, if no name that is taken back is that of a link. -/
theorem LeadsTo.normalize (h : fs.LeadsTo path place) (habsolute : Path.isAbsolute path = true)
    (hlength : byteLength path ≤ maxPathBytes) (hback : ¬ fs.TakesBackLink path) {bytes : Bytes}
    (hfile : fs.node? place = some (.file bytes)) : fs.LeadsTo (Path.normalize path) place := by
  have hroot : fs.node? [] = some .directory := rfl
  rw [leadsTo_iff_walkNames, Path.join_of_isAbsolute habsolute, walkNames_eq_taken] at h
  obtain ⟨left, hfollows⟩ := h
  have hnames : fs.Follows maxLinks [] (Path.names path) left place := hfollows.leading
  obtain ⟨left', -, hresolved⟩ := hnames.resolveNames (fun n hn => Path.isName_of_mem_names hn)
    fun before after above name heq hconcat _ _ _ habove hshort hlink =>
      hback (takesBackLink_of_follows habsolute hlength heq hconcat habove hshort hlink)
  have hne : Path.resolveNames true [] (Path.names path) ≠ [] := by
    intro hnil
    rw [hnil] at hresolved
    cases hresolved
    rw [hroot] at hfile
    cases hfile
  have hsplit := Text.splitOn_joinWith hne fun n hn => (Path.isProper_of_mem_resolveNames_names path n hn).1.2.2
  rw [leadsTo_iff_walkNames, Path.join_of_isAbsolute (Path.isAbsolute_normalize habsolute), walkNames_eq_taken,
    Path.normalize_eq_rootOf_append habsolute]
  exact ⟨left', Follows.rootOf_append habsolute (hsplit.symm ▸ hresolved)⟩

/-- A file is read by the normal form of its path as by the path itself, if no name that is taken back is that of a
link. -/
theorem read_normalize (habsolute : Path.isAbsolute path = true) (hback : ¬ fs.TakesBackLink path)
    (hfile : fs.isFile path = true) :
    fs.locate true (Path.normalize path) = fs.locate true path ∧
      ∃ bytes, fs.read path = .ok bytes ∧ fs.read (Path.normalize path) = .ok bytes := by
  have hne := ne_nil_of_isAbsolute habsolute
  have hneNormal := Path.normalize_ne_nil path
  obtain ⟨hlength, place, bytes, hleads, hnode⟩ := (isFile_iff hne).1 hfile
  have hleadsNormal := hleads.normalize habsolute hlength hback hnode
  have hlengthNormal := (byteLength_normalize_le habsolute).trans hlength
  have hentry := node?_eq_file_iff.1 hnode
  refine ⟨?_, bytes, ?_, ?_⟩
  · rw [(locate_eq_taken hneNormal).2 ⟨hlengthNormal, hleadsNormal⟩, (locate_eq_taken hne).2 ⟨hlength, hleads⟩]
  · unfold read
    rw [(entry?_eq_ok_iff hne).2 ⟨hlength, place, hleads, hentry⟩]
  · unfold read
    rw [(entry?_eq_ok_iff hneNormal).2 ⟨hlengthNormal, place, hleadsNormal, hentry⟩]

theorem isFile_of_parent_last (habsolute : Path.isAbsolute path = true) {before : List Text}
    (hnames : Path.names path = before ++ [Path.parentName]) : fs.isFile path = false := by
  rw [← Bool.not_eq_true]
  intro hfile
  obtain ⟨-, place, bytes, hleads, hnode⟩ := (isFile_iff (ne_nil_of_isAbsolute habsolute)).1 hfile
  rw [leadsTo_iff_walkNames, Path.join_of_isAbsolute habsolute, walkNames_eq_taken] at hleads
  obtain ⟨left, hfollows⟩ := hleads
  have hway : fs.Follows maxLinks [] (before ++ [Path.parentName]) left place := hnames ▸ hfollows.leading
  obtain ⟨left', mid, -, hlast⟩ := hway.split
  obtain ⟨hmid, -, rfl⟩ := hlast.eq_of_parent
  -- above a directory there is a directory
  rcases List.eq_nil_or_concat' mid with rfl | ⟨above, last, rfl⟩
  · cases hnode
  · rw [List.dropLast_concat, node?_eq_directory_of_append hmid] at hnode
    cases hnode

end FileSystem

end AssetEmbed
