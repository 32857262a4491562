import AssetEmbed.Proofs.FileSystem.Path
import AssetEmbed.Proofs.JsonReading
import AssetEmbed.Proofs.Rewriting
import AssetEmbed.Proofs.Sorting
import Mathlib.Data.List.TakeDrop

/-!
# Loading — what the literals of embedded calls say

The literal that takes the place of a call is read as one record, or as an array of records.  Each record
tells a file by an absolute path in normal form and by the way to it from the root of the search, and holds
the content that is found there.  Of the paths that a pattern is expanded to, each gives one record or one
warning.
-/

namespace AssetEmbed

/-! ## 1. Directories of patterns -/

theorem Text.prefix_joinWith (sep : Char) (as bs : List Text) :
    joinWith sep as <+: joinWith sep (as ++ bs) := by
  induction as with
  | nil => exact List.nil_prefix
  | cons a as ih =>
    cases as with
    | nil =>
      cases bs with
      | nil => exact List.prefix_rfl
      | cons b bs => exact List.prefix_append _ _
    | cons c as =>
      rw [List.cons_append, List.cons_append, joinWith_cons_cons, joinWith_cons_cons]
      exact (List.prefix_append_right_inj a).2 (List.cons_prefix_cons.2 ⟨rfl, ih⟩)

theorem Glob.isPattern_of_subset {s t : Text} (h : isPattern t = false) (hsub : s ⊆ t) : isPattern s = false :=
  List.any_eq_false.2 fun c hc => List.any_eq_false.1 h c (hsub hc)

theorem Glob.not_mem_of_plain {s : Text} (h : isPattern s = false) {c : Char} (hc : isWildcard c = true) : c ∉ s :=
  fun hmem => List.any_eq_false.1 h c hmem hc

namespace Glob

variable {init : List Text} {last : Text}

/-- The directory takes the segments before the first one with a wildcard, and never the last one. -/
theorem splitDirectory_joinWith (h : ∀ seg ∈ init ++ [last], '/' ∉ seg) :
    splitDirectory (Text.joinWith '/' (init ++ [last])) =
      let fixed := init.takeWhile fun seg => !isPattern seg
      let directory := Text.joinWith '/' fixed
      (if fixed ≠ [] && directory = [] then ['/'] else directory,
        Text.joinWith '/' (init.dropWhile (fun seg => !isPattern seg) ++ [last])) := by
  have hinit : init ++ [last] = (init.takeWhile fun seg => !isPattern seg) ++
      (init.dropWhile (fun seg => !isPattern seg) ++ [last]) := by
    rw [← List.append_assoc, List.takeWhile_append_dropWhile]
  have hrest : (init ++ [last]).drop (init.takeWhile fun seg => !isPattern seg).length =
      init.dropWhile (fun seg => !isPattern seg) ++ [last] := by
    conv_lhs => rw [hinit, List.drop_left]
  unfold splitDirectory
  rw [Text.splitOn_joinWith (by simp) h]
  dsimp only
  rw [List.dropLast_concat, hrest]

/-- The segments of a pattern are leading ones without wildcards, which make up its directory, and the rest: the last one
alone, or others that begin with one that holds a wildcard. -/
theorem exists_segments (pattern : Text) :
    ∃ fixed init last, pattern.splitOn '/' = fixed ++ (init ++ [last]) ∧ (∀ seg ∈ fixed, isPattern seg = false) ∧
      (∀ seg ∈ init.head?, isPattern seg = true) ∧
      splitDirectory pattern =
        (if fixed ≠ [] && Text.joinWith '/' fixed = [] then ['/'] else Text.joinWith '/' fixed,
          Text.joinWith '/' (init ++ [last])) := by
  obtain ⟨init, last, hsegs, -⟩ := Text.exists_splitOn_eq_concat '/' pattern
  refine ⟨init.takeWhile fun seg => !isPattern seg, init.dropWhile fun seg => !isPattern seg, last, ?_, ?_, ?_, ?_⟩
  · rw [hsegs, ← List.append_assoc, List.takeWhile_append_dropWhile]
  · intro seg hseg
    simpa using List.mem_takeWhile_imp hseg
  · intro seg hseg
    have hfirst := List.head?_dropWhile_not (fun seg => !isPattern seg) init
    rw [hseg] at hfirst
    simpa using hfirst
  · have hslash : ∀ seg ∈ init ++ [last], '/' ∉ seg := fun seg hseg => Text.not_mem_of_mem_splitOn (hsegs ▸ hseg)
    have hsplit := splitDirectory_joinWith hslash
    rwa [← hsegs, Text.joinWith_splitOn] at hsplit

end Glob

/-! ## 2. Search plans -/

namespace SearchPlan

open AssetEmbed.Path

variable {fs : FileSystem} {moduleId basePath target : Text}

theorem splitDirectory_fst (h : ¬ ['/', '/'] <+: target) :
    ¬ ['/', '/'] <+: (Glob.splitDirectory target).1 := by
  obtain ⟨fixed, init, last, hsegs, -, -, hsplit⟩ := Glob.exists_segments target
  rw [hsplit]
  dsimp only
  split
  · intro hpre
    exact absurd hpre.length_le (by decide)
  · intro hpre
    refine h (hpre.trans ?_)
    rw [← Text.joinWith_splitOn '/' target, hsegs]
    exact Text.prefix_joinWith '/' fixed _

theorem splitDirectory_snd_mem (h : Glob.isPattern target = false) :
    (Glob.splitDirectory target).2 ∈ target.splitOn '/' := by
  obtain ⟨fixed, init, last, hsegs, -, hinit, hsplit⟩ := Glob.exists_segments target
  have hnil : init = [] := by
    cases init with
    | nil => rfl
    | cons seg init =>
      have hseg : seg ∈ target.splitOn '/' := hsegs ▸ List.mem_append_right fixed List.mem_cons_self
      have hplain := Glob.isPattern_of_subset h fun c hc => Text.mem_of_mem_splitOn hseg hc
      rw [hinit seg rfl] at hplain
      cases hplain
  subst hnil
  rw [hsplit, hsegs]
  exact List.mem_append_right fixed (List.mem_singleton_self last)

theorem splitDirectory_snd (h : Glob.isPattern target = false) : '/' ∉ (Glob.splitDirectory target).2 :=
  Text.not_mem_of_mem_splitOn (splitDirectory_snd_mem h)

theorem not_mem_baseName (path : Text) : '/' ∉ baseName path := by
  intro hmem
  have hother := List.mem_takeWhile_imp (List.mem_reverse.1 hmem)
  exact of_decide_eq_true hother rfl

theorem not_prefix_of_not_mem {s : Text} (h : '/' ∉ s) : ¬ ['/', '/'] <+: s := by
  intro hpre
  exact h (hpre.subset List.mem_cons_self)

theorem isRooted_moduleDirectory (hcwd : isAbsolute fs.cwd)
    (hmodule : ¬ ['/', '/'] <+: join fs.cwd moduleId) :
    IsRooted (directoryName (absolute fs.cwd moduleId)) := by
  have hrooted := isRooted_iff.2 ⟨isAbsolute_join hcwd moduleId, hmodule⟩
  exact hrooted.normalize.isRooted.directoryName

theorem isRooted_split {directory : Text} (hdirectory : IsRooted directory) (hbase : ¬ ['/', '/'] <+: basePath)
    (htarget : ¬ ['/', '/'] <+: target) : IsRooted (SearchPlan.split directory basePath target).1 := by
  unfold SearchPlan.split
  split
  · exact hdirectory.join hbase
  · split
    · rename_i habsolute
      rw [Bool.and_eq_true] at habsolute
      exact (isRooted_iff.2 ⟨habsolute.1, htarget⟩).directoryName
    · exact hdirectory.join (splitDirectory_fst htarget)

theorem isNormal_root (hcwd : isAbsolute fs.cwd)
    (hmodule : ¬ ['/', '/'] <+: join fs.cwd moduleId)
    (hbase : ¬ ['/', '/'] <+: basePath) (htarget : ¬ ['/', '/'] <+: target) :
    IsNormal (ofTarget fs moduleId basePath target).root :=
  (isRooted_split (isRooted_moduleDirectory hcwd hmodule) hbase htarget).normalize

/-- The one file that a plan looks for does not lie below two slashes. -/
theorem not_prefix_pattern (htarget : ¬ ['/', '/'] <+: target)
    (hsingle : (ofTarget fs moduleId basePath target).single) :
    ¬ ['/', '/'] <+: (ofTarget fs moduleId basePath target).pattern := by
  have hplain : Glob.isPattern target = false := by
    unfold ofTarget at hsingle
    simp only [Bool.and_eq_true, Bool.not_eq_true'] at hsingle
    exact hsingle.1.1
  show ¬ ['/', '/'] <+: (SearchPlan.split _ basePath target).2
  unfold SearchPlan.split
  split
  · exact htarget
  · split
    · exact not_prefix_of_not_mem (not_mem_baseName target)
    · exact not_prefix_of_not_mem (splitDirectory_snd hplain)

end SearchPlan

/-! ## 3. Expansion -/

namespace FileSystem

variable {fs : FileSystem} {root pattern : Text} {names : List Text}

theorem expand_pairwise (h : fs.expand root pattern = .ok names) : names.Pairwise (· < ·) := by
  unfold expand at h
  split at h
  next => cases h
  next alternatives _ =>
    cases hfound : alternatives.mapM (fs.expandAlternative root) with
    | error e =>
      rw [hfound] at h
      cases h
    | ok found =>
      rw [hfound] at h
      cases h
      exact Text.sortUnique_pairwise _

theorem mem_of_expandAlternative {alternative : Text} (h : fs.expandAlternative root alternative = .ok names)
    {name : Text} :
    name ∈ names ↔ ∃ selector way,
      Glob.selector? (Glob.splitDirectory alternative).2 = .ok (some selector) ∧
        way ∈ fs.selected (Path.normalize (Path.join root (Glob.splitDirectory alternative).1))
          (Glob.splitDirectory alternative).2 selector ∧
        name = Path.relative fs.cwd
          (below (Path.normalize (Path.join root (Glob.splitDirectory alternative).1)) way) root := by
  unfold expandAlternative at h
  dsimp only at h
  split at h
  next => cases h
  next hselector =>
    cases h
    rw [hselector]
    exact ⟨nofun, nofun⟩
  next selector hselector =>
    cases h
    rw [hselector, List.mem_map]
    constructor
    · intro hname
      obtain ⟨way, hway, hname⟩ := hname
      exact ⟨selector, way, rfl, hway, hname.symm⟩
    · intro hname
      obtain ⟨selector', way, heq, hway, hname⟩ := hname
      cases heq
      exact ⟨way, hway, hname.symm⟩

/-- The paths that a pattern is expanded to are the ways from the root to the files that its plain patterns select. -/
theorem mem_of_expand (h : fs.expand root pattern = .ok names) {name : Text} :
    name ∈ names ↔ ∃ alternatives, Glob.alternatives pattern = .ok alternatives ∧
      ∃ alternative ∈ alternatives, ∃ selector way,
        Glob.selector? (Glob.splitDirectory alternative).2 = .ok (some selector) ∧
          way ∈ fs.selected (Path.normalize (Path.join root (Glob.splitDirectory alternative).1))
            (Glob.splitDirectory alternative).2 selector ∧
          name = Path.relative fs.cwd
            (below (Path.normalize (Path.join root (Glob.splitDirectory alternative).1)) way) root := by
  unfold expand at h
  split at h
  next => cases h
  next alternatives halternatives =>
    obtain ⟨found, hfound, rfl⟩ := map_eq_ok.1 h
    rw [Text.mem_sortUnique, List.mem_flatten]
    constructor
    · intro hname
      obtain ⟨paths, hpaths, hname⟩ := hname
      obtain ⟨alternative, halternative, hexpand⟩ := (mem_iff_of_mapM_eq_ok hfound).1 hpaths
      exact ⟨alternatives, halternatives, alternative, halternative, (mem_of_expandAlternative hexpand).1 hname⟩
    · intro hname
      obtain ⟨alternatives', heq, alternative, halternative, hname⟩ := hname
      rw [halternatives] at heq
      cases heq
      obtain ⟨paths, hpaths⟩ := mapM_isOk.1 ⟨found, hfound⟩ alternative halternative
      exact ⟨paths, (mem_iff_of_mapM_eq_ok hfound).2 ⟨alternative, halternative, hpaths⟩,
        (mem_of_expandAlternative hpaths).2 hname⟩

end FileSystem

/-! ## 4. Records -/

/-- What a record tells about a file as seen from the root of a search. -/
structure FileRecord.Faithful [Charsets] (fs : FileSystem) (root encoding : Text) (r : FileRecord) : Prop where
  absolute : Path.isAbsolute r.filePath
  normal : Path.normalize r.filePath = r.filePath
  /-- The content is what the encoding makes of the bytes that are found at the path. -/
  content : ∃ bytes, fs.read r.filePath = .ok bytes ∧ decodeContent bytes encoding = .ok r.content
  /-- From the root, the name of the file leads to the path. -/
  named : Path.normalize (Path.join root r.fileName) = r.filePath

namespace FileSystem

variable {fs : FileSystem} {root encoding : Text}

theorem readContent_eq_ok [Charsets] {path content : Text} (h : fs.readContent path encoding = .ok content) :
    ∃ bytes, fs.read path = .ok bytes ∧ decodeContent bytes encoding = .ok content := by
  unfold readContent at h
  cases hread : fs.read path with
  | error e =>
    rw [hread] at h
    cases h
  | ok bytes =>
    rw [hread] at h
    refine ⟨bytes, rfl, ?_⟩
    cases hdecode : decodeContent bytes encoding with
    | error e =>
      simp only [hdecode] at h
      cases h
    | ok decoded =>
      simp only [hdecode] at h
      cases h
      rfl

theorem faithful_ofContent [Charsets] (hroot : Path.IsNormal root) {path content : Text}
    (hpath : Path.IsNormal path) (h : fs.readContent path encoding = .ok content) :
    (FileRecord.ofContent fs root path content).Faithful fs root encoding where
  absolute := hpath.isRooted.isAbsolute
  normal := hpath.normalize_eq
  content := readContent_eq_ok h
  named := Path.normalize_join_relative hroot hpath

def recordAt? [Charsets] (fs : FileSystem) (root encoding name : Text) : Option FileRecord :=
  let path := Path.normalize (Path.join root name)
  match fs.readContent path encoding with
  | .ok content => some (.ofContent fs root path content)
  | .error _ => none

/-- The warning about the file that a path as seen from a root leads to, if it cannot be read. -/
def warningAt? [Charsets] (fs : FileSystem) (root encoding name : Text) : Option Diagnostic :=
  let path := Path.normalize (Path.join root name)
  match fs.readContent path encoding with
  | .ok _ => none
  | .error e => some ⟨.warning, e.report path, none⟩

theorem recordAt?_of_ok [Charsets] {name content : Text}
    (h : fs.readContent (Path.normalize (Path.join root name)) encoding = .ok content) :
    fs.recordAt? root encoding name =
        some (.ofContent fs root (Path.normalize (Path.join root name)) content) ∧
      fs.warningAt? root encoding name = none := by
  unfold recordAt? warningAt?
  simp only [h, and_self]

theorem recordAt?_of_error [Charsets] {name : Text} {e : ReadError}
    (h : fs.readContent (Path.normalize (Path.join root name)) encoding = .error e) :
    fs.recordAt? root encoding name = none ∧
      fs.warningAt? root encoding name =
        some ⟨.warning, e.report (Path.normalize (Path.join root name)), none⟩ := by
  unfold recordAt? warningAt?
  simp only [h, and_self]

/-- For each path there is one record or one warning, and not both. -/
theorem recordAt?_or_warningAt? [Charsets] (fs : FileSystem) (root encoding name : Text) :
    (∃ r, fs.recordAt? root encoding name = some r ∧ fs.warningAt? root encoding name = none) ∨
      ∃ w, fs.warningAt? root encoding name = some w ∧ fs.recordAt? root encoding name = none := by
  cases hread : fs.readContent (Path.normalize (Path.join root name)) encoding with
  | ok content => exact .inl ⟨_, recordAt?_of_ok hread⟩
  | error e => exact .inr ⟨_, (recordAt?_of_error hread).2, (recordAt?_of_error hread).1⟩

/-- Loading files gives the records of those that can be read, and the warnings about the others. -/
theorem loadEach_eq [Charsets] {names : List Text} {records : List FileRecord} {events : List Event}
    (h : loadEach fs root encoding names = .ok (records, events)) :
    records = names.filterMap (fs.recordAt? root encoding) ∧
      events = (names.filterMap (fs.warningAt? root encoding)).map .diagnostic := by
  induction names generalizing records events with
  | nil =>
    cases h
    exact ⟨rfl, rfl⟩
  | cons name names ih =>
    unfold loadEach at h
    dsimp only at h
    rw [List.filterMap_cons, List.filterMap_cons]
    split at h
    case h_1 => cases h
    case h_2 content hread =>
      obtain ⟨⟨later, more⟩, hrest, h⟩ := bind_eq_ok.1 h
      cases h
      obtain ⟨rfl, rfl⟩ := ih hrest
      rw [(recordAt?_of_ok hread).1, (recordAt?_of_ok hread).2]
      exact ⟨rfl, rfl⟩
    case h_3 e _ hread =>
      obtain ⟨⟨later, more⟩, hrest, h⟩ := bind_eq_ok.1 h
      cases h
      obtain ⟨rfl, rfl⟩ := ih hrest
      rw [(recordAt?_of_error hread).1, (recordAt?_of_error hread).2]
      exact ⟨rfl, rfl⟩

/-- What a plan for one file gives is the faithful record of that file. -/
theorem load_single_eq [Charsets] {plan : SearchPlan} {location : Location} {embedding : Embedding}
    {events : List Event} (hsingle : plan.single = true) (hroot : Path.IsNormal plan.root)
    (hpattern : ¬ ['/', '/'] <+: plan.pattern) (h : load fs plan encoding location = .ok (some embedding, events)) :
    ∃ r, embedding = .one r ∧ r.Faithful fs plan.root encoding := by
  cases loaded_of_load h with
  | one _ hread => exact ⟨_, rfl, faithful_ofContent hroot (hroot.isRooted.join hpattern).normalize hread⟩
  | many hmany =>
    rw [hsingle] at hmany
    cases hmany

/-- What a plan for a pattern gives are the records of the files that it is expanded to; about each of the
others there is a warning. -/
theorem load_many_eq [Charsets] {plan : SearchPlan} {location : Location} {embedding : Embedding}
    {events : List Event} (hmany : plan.single = false)
    (h : load fs plan encoding location = .ok (some embedding, events)) :
    ∃ names mode, fs.expand plan.root plan.pattern = .ok names ∧
      embedding = .many (names.filterMap (fs.recordAt? plan.root encoding)) ∧
      events = .info mode ::
        (names.filterMap (fs.warningAt? plan.root encoding)).map .diagnostic := by
  cases loaded_of_load h with
  | one hsingle =>
    rw [hmany] at hsingle
    cases hsingle
  | many _ hnames heach =>
    obtain ⟨rfl, rfl⟩ := loadEach_eq heach
    exact ⟨_, _, hnames, rfl, rfl⟩

/-- The records of what a pattern is expanded to are faithful, and bear the names that it is expanded to. -/
theorem recordAt?_faithful [Charsets] (hcwd : Path.isAbsolute fs.cwd) (hroot : Path.IsNormal root) {pattern : Text}
    {names : List Text} (hnames : fs.expand root pattern = .ok names) {name : Text} {r : FileRecord}
    (hname : name ∈ names) (hr : fs.recordAt? root encoding name = some r) :
    r.Faithful fs root encoding ∧ r.fileName = name := by
  obtain ⟨path, rfl⟩ : ∃ path, name = Path.relative fs.cwd path root := by
    obtain ⟨-, -, alternative, -, -, way, -, -, hrelative⟩ := (mem_of_expand hnames).1 hname
    exact ⟨_, hrelative⟩
  have habsolute := Path.isAbsolute_join hcwd path
  have hpath := Path.isNormal_normalize_join_relative hroot habsolute
  cases hread : fs.readContent
      (Path.normalize (Path.join root (Path.relative fs.cwd path root))) encoding with
  | error e =>
    rw [(recordAt?_of_error hread).1] at hr
    cases hr
  | ok content =>
    rw [(recordAt?_of_ok hread).1] at hr
    cases hr
    exact ⟨faithful_ofContent hroot hpath hread, Path.relative_normalize_join hroot habsolute⟩

theorem map_fileName_filterMap [Charsets] (hcwd : Path.isAbsolute fs.cwd) (hroot : Path.IsNormal root)
    {pattern : Text} {names : List Text} (hnames : fs.expand root pattern = .ok names) :
    (names.filterMap (fs.recordAt? root encoding)).map (·.fileName) =
      names.filter fun name => (fs.recordAt? root encoding name).isSome := by
  rw [List.map_filterMap, ← List.filterMap_eq_filter]
  refine List.filterMap_congr ?_
  intro name hname
  cases hr : fs.recordAt? root encoding name with
  | none => simp [Option.guard, hr]
  | some r =>
    have hfaithful := recordAt?_faithful hcwd hroot hnames hname hr
    simp [Option.guard, hr, hfaithful.2]

end FileSystem

/-! ## 5. Embedded calls -/

theorem Script.Source.markerCall_location {m : Script.Source} {p : Script.Tree.Placed}
    {call : MarkerCall} (h : m.markerCall p = .ok call) : call.location.moduleId = m.moduleId := by
  unfold markerCall at h
  split at h
  next => cases h; rfl
  next => cases h

theorem MarkerCall.embed_eq_some [Charsets] {call : MarkerCall} {fs : FileSystem} {options : TransformOptions}
    {bindings : Bindings} {embedding : Embedding} {events : List Event}
    (h : call.embed fs options bindings = .ok (some embedding, events)) :
    ∃ resolved warnings found,
      call.resolve options.marker options.encoding bindings = (some resolved, warnings) ∧
      load fs (SearchPlan.ofTarget fs call.location.moduleId resolved.options.basePath
        resolved.target) resolved.options.encoding call.location = .ok (some embedding, found) ∧
      events = warnings.map .diagnostic ++ found ++ [embedding.remark call.location] := by
  cases embeds_of_embed h with
  | loaded hresolve hload => exact ⟨_, _, _, hresolve, hload, rfl⟩

theorem MarkerCall.embed_of_load [Charsets] {call : MarkerCall} {fs : FileSystem} {options : TransformOptions}
    {bindings : Bindings} {resolved : ResolvedCall} {warnings : List Diagnostic} {embedding : Embedding}
    {found : List Event} (hresolve : call.resolve options.marker options.encoding bindings = (some resolved, warnings))
    (hload : load fs (SearchPlan.ofTarget fs call.location.moduleId resolved.options.basePath resolved.target)
      resolved.options.encoding call.location = .ok (some embedding, found)) :
    call.embed fs options bindings =
      .ok (some embedding, warnings.map .diagnostic ++ found ++ [embedding.remark call.location]) := by
  unfold embed
  rw [hresolve]
  simp only [hload]
  rfl

section

variable {fs : FileSystem} {options : TransformOptions} {moduleId code : Text} {tree : Script.Tree}

theorem embed_of_mem_moduleEmbedded [Charsets] {c : Embedded}
    (hc : c ∈ moduleEmbedded fs options moduleId code tree) :
    c.1.location.moduleId = moduleId ∧
      ∃ events, c.1.embed fs options (Script.bindings tree) = .ok (some c.2, events) := by
  obtain ⟨call, hcall, hpair⟩ := List.mem_filterMap.1 hc
  obtain ⟨embedding, hembedding, rfl⟩ := Option.map_eq_some_iff.1 hpair
  clear hpair
  obtain ⟨p, -, -, hok⟩ := Script.Source.exists_placed_of_mem hcall
  refine ⟨Script.Source.markerCall_location hok, ?_⟩
  unfold MarkerCall.embedding? at hembedding
  split at hembedding
  next embedded events hembed =>
    rw [hembedding] at hembed
    exact ⟨events, hembed⟩
  next => cases hembedding

/-- The literal of every embedded call of a module is read as one faithful record, if the call asks for one
file, and otherwise as an array of faithful records.  These are the records of the increasing paths that the
pattern is expanded to, each of which gives either one record, with that path as the name of its file, or
one of the warnings of the call. -/
theorem literal_of_embedded_call [Charsets] {c : Embedded} (hc : c ∈ moduleEmbedded fs options moduleId code tree)
    (hcwd : Path.isAbsolute fs.cwd) (hmodule : ¬ ['/', '/'] <+: Path.join fs.cwd moduleId)
    (htarget : ∀ resolved warnings,
      c.1.resolve options.marker options.encoding (Script.bindings tree) = (some resolved, warnings) →
        ¬ ['/', '/'] <+: resolved.target ∧ ¬ ['/', '/'] <+: resolved.options.basePath) :
    ∃ resolved warnings,
      c.1.resolve options.marker options.encoding (Script.bindings tree) = (some resolved, warnings) ∧
      let plan := SearchPlan.ofTarget fs moduleId resolved.options.basePath resolved.target
      let encoding := resolved.options.encoding
      (plan.single →
        ∃ r : FileRecord, Json.read? c.edit.replacement = some r.toJson ∧ r.Faithful fs plan.root encoding) ∧
      (plan.single = false →
        ∃ (names : List Text) (records : List FileRecord) (mode : String),
          Json.read? c.edit.replacement = some (.array (records.map (·.toJson))) ∧
          (∀ r ∈ records, r.Faithful fs plan.root encoding) ∧
          (records.map (·.fileName)).Pairwise (· < ·) ∧
          fs.expand plan.root plan.pattern = .ok names ∧
          records = names.filterMap (fs.recordAt? plan.root encoding) ∧
          c.1.embed fs options (Script.bindings tree) = .ok (some c.2,
            warnings.map .diagnostic ++
              .info mode :: (names.filterMap (fs.warningAt? plan.root encoding)).map .diagnostic ++
              [c.2.remark c.1.location]) ∧
          ∀ name ∈ names,
            (∃ r, fs.recordAt? plan.root encoding name = some r ∧ r.fileName = name ∧
              fs.warningAt? plan.root encoding name = none) ∨
            ∃ w, fs.warningAt? plan.root encoding name = some w ∧
              fs.recordAt? plan.root encoding name = none) := by
  obtain ⟨hmoduleId, events, hembed⟩ := embed_of_mem_moduleEmbedded hc
  obtain ⟨resolved, warnings, found, hresolve, hload, hevents⟩ := MarkerCall.embed_eq_some hembed
  rw [hmoduleId] at hload
  obtain ⟨htargetPath, hbasePath⟩ := htarget resolved warnings hresolve
  have hroot := SearchPlan.isNormal_root hcwd hmodule hbasePath htargetPath
  -- a literal is the notation of what a call is replaced by, so reading it gives that
  have hliteral : Json.read? c.edit.replacement = some c.2.toJson := Json.read?_render c.2.toJson
  refine ⟨resolved, warnings, hresolve, ?_, ?_⟩
  · intro hsingle
    have hpattern := SearchPlan.not_prefix_pattern htargetPath hsingle
    obtain ⟨r, hr, hfaithful⟩ := FileSystem.load_single_eq hsingle hroot hpattern hload
    rw [hr] at hliteral
    exact ⟨r, hliteral, hfaithful⟩
  · intro hmany
    -- what is loaded by a pattern comes path by path: a record or a warning for each
    obtain ⟨names, mode, hnames, hrecords, hfound⟩ := FileSystem.load_many_eq hmany hload
    rw [hrecords] at hliteral
    refine ⟨names, _, mode, hliteral, ?_, ?_, hnames, rfl, ?_, ?_⟩
    · intro r hr
      obtain ⟨name, hname, hrecord⟩ := List.mem_filterMap.1 hr
      exact (FileSystem.recordAt?_faithful hcwd hroot hnames hname hrecord).1
    · rw [FileSystem.map_fileName_filterMap hcwd hroot hnames]
      exact (FileSystem.expand_pairwise hnames).filter _
    · rw [hembed, hevents, hfound]
    · intro name hname
      rcases fs.recordAt?_or_warningAt? _ resolved.options.encoding name with
        ⟨r, hr, hw⟩ | ⟨w, hw, hr⟩
      · have hfaithful := FileSystem.recordAt?_faithful hcwd hroot hnames hname hr
        exact .inl ⟨r, hr, hfaithful.2, hw⟩
      · exact .inr ⟨w, hw, hr⟩

end

/-- Three directories with a file in each, the first of which is empty. -/
def threeFiles : FileSystem where
  entries := [("d".toList, .directory [("a".toList, .file [])]),
    ("e".toList, .directory [("b".toList, .file [104, 105])]),
    ("f".toList, .directory [("c".toList, .file [104, 111])])]
  cwd := ['/']

/-- A pattern for the three files. -/
def threePattern : Text := "\x7bd,e,f\x7d/*".toList

def threeNames : List Text := ["d/a".toList, "e/b".toList, "f/c".toList]

def threeRecords : List FileRecord := [
  ⟨[], "/d/a".toList, "d/a".toList⟩, ⟨"hi".toList, "/e/b".toList, "e/b".toList⟩,
  ⟨"ho".toList, "/f/c".toList, "f/c".toList⟩]

theorem expand_threeFiles : threeFiles.expand ['/'] threePattern = .ok threeNames := by
  have halternatives : Glob.alternatives threePattern = .ok ["d/*".toList, "e/*".toList, "f/*".toList] := by
    decide +kernel
  have hfound : ["d/*".toList, "e/*".toList, "f/*".toList].mapM (threeFiles.expandAlternative ['/']) =
      .ok [["d/a".toList], ["e/b".toList], ["f/c".toList]] := by
    decide +kernel
  simp only [FileSystem.expand, halternatives, hfound]
  exact congrArg Except.ok (List.mergeSort_of_pairwise (by decide))

theorem load_threeFiles {encoding : Text} {records : List FileRecord}
    (heach : (loadEach threeFiles ['/'] encoding threeNames).map (·.1) = .ok records) (location : Location) :
    ∃ found, load threeFiles ⟨['/'], threePattern, false⟩ encoding location =
      .ok (some (.many records), found) := by
  obtain ⟨⟨records, events⟩, hevents, rfl⟩ := map_eq_ok.1 heach
  simp only [load, loadMany, expand_threeFiles, hevents]
  exact ⟨_, rfl⟩

/-- No text of a file with content is given under the name of a codec that gives none. -/
theorem exists_warnings_threeFiles :
    ∃ first second, threeFiles.warningAt? ['/'] "rot13".toList "e/b".toList = some first ∧
      threeFiles.warningAt? ['/'] "rot13".toList "f/c".toList = some second ∧
      threeNames.filterMap (threeFiles.warningAt? ['/'] "rot13".toList) = [first, second] := by
  have hsome : ∀ name ∈ threeNames.tail,
      (threeFiles.warningAt? ['/'] "rot13".toList name).isSome = true := by
    decide +kernel
  obtain ⟨first, hfirst⟩ := Option.isSome_iff_exists.1 (hsome "e/b".toList (by decide))
  obtain ⟨second, hsecond⟩ := Option.isSome_iff_exists.1 (hsome "f/c".toList (by decide))
  have hnone : threeFiles.warningAt? ['/'] "rot13".toList "d/a".toList = none := by decide +kernel
  refine ⟨first, second, hfirst, hsecond, ?_⟩
  rw [threeNames, List.filterMap_cons_none hnone, List.filterMap_cons_some hfirst,
    List.filterMap_cons_some hsecond, List.filterMap_nil]

theorem load_lastFile (location : Location) :
    ∃ found, load threeFiles ⟨"/f".toList, "c".toList, true⟩ "utf-8".toList location =
      .ok (some (.one ⟨"ho".toList, "/f/c".toList, "c".toList⟩), found) := by
  have hcontent : threeFiles.readContent (Path.normalize (Path.join "/f".toList "c".toList)) "utf-8".toList =
      .ok "ho".toList := by
    decide +kernel
  have hrecord : FileRecord.ofContent threeFiles "/f".toList (Path.normalize (Path.join "/f".toList "c".toList))
      "ho".toList = ⟨"ho".toList, "/f/c".toList, "c".toList⟩ := by
    decide +kernel
  simp only [load, loadOne, hcontent, hrecord]
  exact ⟨_, rfl⟩

/-- Two calls for the three files, the first one under the name of a codec that gives no text, and a call for the
last file. -/
def severalCalls : Text := "[m('\x7bd,e,f\x7d/*',\x7bencoding:'rot13'\x7d),m('\x7bd,e,f\x7d/*'),m('f/c')]".toList

/-- The module and the resolution of each of these calls. -/
def severalResolved : List (Text × Option ResolvedCall × List Diagnostic) := [
  ("/x.js".toList, some ⟨threePattern, [], OptionValues.defaultPattern, "rot13".toList⟩, []),
  ("/x.js".toList, some ⟨threePattern, [], OptionValues.defaultPattern, "utf-8".toList⟩, []),
  ("/x.js".toList, some ⟨"f/c".toList, [], OptionValues.defaultPattern, "utf-8".toList⟩, [])]

theorem resolve_severalCalls :
    ∃ tree, Script.Tree.ofScript (Script.Dialect.ofModuleId "/x.js".toList) severalCalls = .ok tree ∧
      (moduleCalls oneLetter "/x.js".toList severalCalls tree).map (fun call =>
        (call.location.moduleId, call.resolve oneLetter.marker oneLetter.encoding (Script.bindings tree))) =
          severalResolved := by
  have hread : (Script.Tree.ofScript (Script.Dialect.ofModuleId "/x.js".toList) severalCalls).toOption.any
      (fun tree => decide ((moduleCalls oneLetter "/x.js".toList severalCalls tree).map (fun call =>
        (call.location.moduleId, call.resolve oneLetter.marker oneLetter.encoding (Script.bindings tree))) =
          severalResolved)) = true := by
    decide +kernel
  obtain ⟨tree, htree, hresolved⟩ := exists_of_toOption_any hread
  exact ⟨tree, htree, of_decide_eq_true hresolved⟩

/-- Of the literals of `severalCalls`, the first one is read as the record of the empty file alone, with a warning
about each of the others; the second one as the records of all files; and the last one as a single record. -/
theorem literal_of_severalCalls :
    ∃ tree, Script.Tree.ofScript (Script.Dialect.ofModuleId "/x.js".toList) severalCalls = .ok tree ∧
      (∃ c ∈ moduleEmbedded threeFiles oneLetter "/x.js".toList severalCalls tree,
        ∃ (events : List Event) (first second : Diagnostic),
          Json.read? c.edit.replacement = some (.array ((threeRecords.take 1).map (·.toJson))) ∧
          (∀ r ∈ threeRecords.take 1, r.Faithful threeFiles ['/'] "rot13".toList) ∧
          c.1.embed threeFiles oneLetter (Script.bindings tree) = .ok (some c.2, events) ∧
          Event.diagnostics events = [first, second] ∧
          threeFiles.warningAt? ['/'] "rot13".toList "e/b".toList = some first ∧
          threeFiles.warningAt? ['/'] "rot13".toList "f/c".toList = some second) ∧
      (∃ c ∈ moduleEmbedded threeFiles oneLetter "/x.js".toList severalCalls tree,
        ∃ events : List Event, Json.read? c.edit.replacement = some (.array (threeRecords.map (·.toJson))) ∧
          (∀ r ∈ threeRecords, r.Faithful threeFiles ['/'] "utf-8".toList) ∧
          c.1.embed threeFiles oneLetter (Script.bindings tree) = .ok (some c.2, events) ∧
          Event.diagnostics events = []) ∧
      ∃ c ∈ moduleEmbedded threeFiles oneLetter "/x.js".toList severalCalls tree,
        ∃ r : FileRecord, Json.read? c.edit.replacement = some r.toJson ∧
          r.Faithful threeFiles "/f".toList "utf-8".toList := by
  have hmany : SearchPlan.ofTarget threeFiles "/x.js".toList [] threePattern = ⟨['/'], threePattern, false⟩ := by
    decide +kernel
  have hone : SearchPlan.ofTarget threeFiles "/x.js".toList [] "f/c".toList = ⟨"/f".toList, "c".toList, true⟩ := by
    decide +kernel
  obtain ⟨tree, htree, hresolved⟩ := resolve_severalCalls
  obtain ⟨refused, _, hcalls, hrefused, hrest⟩ := List.map_eq_cons_iff.1 hresolved
  obtain ⟨read, _, rfl, hread, hrest⟩ := List.map_eq_cons_iff.1 hrest
  obtain ⟨last, _, rfl, hlast, -⟩ := List.map_eq_cons_iff.1 hrest
  obtain ⟨hrefusedId, hrefusedResolve⟩ := Prod.mk.inj hrefused
  obtain ⟨hreadId, hreadResolve⟩ := Prod.mk.inj hread
  obtain ⟨hlastId, hlastResolve⟩ := Prod.mk.inj hlast
  -- both calls with the pattern differ in what the encoding makes of the files
  have hpattern : ∀ (call : MarkerCall) (encoding : Text) (records : List FileRecord),
      call ∈ moduleCalls oneLetter "/x.js".toList severalCalls tree → call.location.moduleId = "/x.js".toList →
      call.resolve oneLetter.marker oneLetter.encoding (Script.bindings tree) =
        (some ⟨threePattern, [], OptionValues.defaultPattern, encoding⟩, []) →
      (loadEach threeFiles ['/'] encoding threeNames).map (·.1) = .ok records →
      ∃ c ∈ moduleEmbedded threeFiles oneLetter "/x.js".toList severalCalls tree, ∃ events : List Event,
        Json.read? c.edit.replacement = some (.array (records.map (·.toJson))) ∧
        (∀ r ∈ records, r.Faithful threeFiles ['/'] encoding) ∧
        c.1.embed threeFiles oneLetter (Script.bindings tree) = .ok (some c.2, events) ∧
        Event.diagnostics events = threeNames.filterMap (threeFiles.warningAt? ['/'] encoding) := by
    intro call encoding records hcall hid hresolve heach
    obtain ⟨found, hload⟩ := load_threeFiles heach call.location
    have hc := mem_moduleEmbedded hcall (MarkerCall.embed_of_load hresolve (by rw [hid, hmany]; exact hload))
    obtain ⟨resolved, warnings, hresolve', -, hspec⟩ := literal_of_embedded_call hc (by decide) (by decide) (by
      intro resolved warnings hresolve'
      rw [hresolve] at hresolve'
      cases hresolve'
      exact ⟨(by decide : ¬ ['/', '/'] <+: threePattern), (by decide : ¬ ['/', '/'] <+: [])⟩)
    rw [hresolve] at hresolve'
    cases hresolve'
    rw [hmany] at hspec
    obtain ⟨names, found, mode, hread, hfaithful, -, hnames, hrecords, hembed, -⟩ := hspec rfl
    rw [expand_threeFiles] at hnames
    cases hnames
    obtain ⟨⟨_, _⟩, hloaded, rfl⟩ := map_eq_ok.1 heach
    obtain rfl := hrecords.trans (FileSystem.loadEach_eq hloaded).1.symm
    refine ⟨_, hc, _, hread, hfaithful, hembed, ?_⟩
    simp [Event.diagnostics, Embedding.remark, List.filterMap_map]
  refine ⟨tree, htree, ?_, ?_, ?_⟩
  · obtain ⟨c, hc, events, hliteral, hfaithful, hembed, hevents⟩ :=
      hpattern refused _ (threeRecords.take 1) (by rw [hcalls]; simp) hrefusedId hrefusedResolve
        (by decide +kernel)
    obtain ⟨first, second, hfirst, hsecond, hwarnings⟩ := exists_warnings_threeFiles
    exact ⟨c, hc, events, first, second, hliteral, hfaithful, hembed, hevents.trans hwarnings, hfirst, hsecond⟩
  · obtain ⟨c, hc, events, hliteral, hfaithful, hembed, hevents⟩ :=
      hpattern read _ threeRecords (by rw [hcalls]; simp) hreadId hreadResolve (by decide +kernel)
    have hnone : threeNames.filterMap (threeFiles.warningAt? ['/'] "utf-8".toList) = [] := by decide +kernel
    exact ⟨c, hc, events, hliteral, hfaithful, hembed, hevents.trans hnone⟩
  · obtain ⟨found, hload⟩ := load_lastFile last.location
    have hembed := MarkerCall.embed_of_load hlastResolve (by rw [hlastId, hone]; exact hload)
    have hc := mem_moduleEmbedded (by rw [hcalls]; simp) hembed
    obtain ⟨resolved, warnings, hresolve, hspec, -⟩ := literal_of_embedded_call hc (by decide) (by decide) (by
      intro resolved warnings hresolve
      rw [hlastResolve] at hresolve
      cases hresolve
      decide)
    rw [hlastResolve] at hresolve
    cases hresolve
    rw [hone] at hspec
    obtain ⟨r, hread, hfaithful⟩ := hspec rfl
    exact ⟨_, hc, r, hread, hfaithful⟩

end AssetEmbed
