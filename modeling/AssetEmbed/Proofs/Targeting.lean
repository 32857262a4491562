import AssetEmbed.Proofs.FileSystem.Normalizing
import AssetEmbed.Proofs.Searching

/-!
# Targeting — the one file that a target tells

A target that is the path of a file is looked for at the path as it is written, and read by the normal form of the path.
Both lead to the same file, unless a `..` of the target takes back the name of a link; this can only be if the target is
seen from a base path.
-/

namespace AssetEmbed

namespace SearchPlan

variable {fs : FileSystem} {plan : SearchPlan} {moduleId basePath target : Text}

/-! ## 1. What a target takes back -/

theorem not_mem_pattern (h : Glob.isPattern target = false) (directory : Text) :
    '/' ∉ (SearchPlan.split directory [] target).2 := by
  unfold SearchPlan.split
  rw [if_neg (fun h => h rfl)]
  split
  · exact not_mem_baseName target
  · exact splitDirectory_snd h

/-- The path of a target goes up only behind a base path and where the target does. -/
theorem not_takesBackLink (hcwd : Path.isAbsolute fs.cwd = true) (hplan : ofTarget fs moduleId basePath target = plan)
    (hsingle : plan.single = true) (htarget : basePath = [] ∨ Path.parentName ∉ Path.names target) :
    ¬ fs.TakesBackLink (Path.join plan.root plan.pattern) := by
  have hsound : plan.IsSound fs := hplan ▸ isSound_ofTarget (Path.isAbsolute_join hcwd moduleId) basePath target
  obtain ⟨-, hfile⟩ := hsound.single hsingle
  have hplain : Glob.isPattern target = false := by
    rw [← hplan] at hsingle
    unfold ofTarget at hsingle
    simp only [Bool.and_eq_true, Bool.not_eq_true'] at hsingle
    exact hsingle.1.1
  rintro ⟨before, after, hnames, -⟩
  by_cases hpattern : Path.parentName ∈ Path.names plan.pattern
  · have hslash : '/' ∉ plan.pattern := by
      by_cases hbase : basePath = []
      · subst hbase
        rw [← hplan]
        exact not_mem_pattern hplain _
      · have heq : plan.pattern = target := by
          rw [← hplan]
          exact congrArg Prod.snd (if_pos hbase)
        exact absurd (heq ▸ hpattern) (htarget.resolve_left hbase)
    -- a single `..` leads to a directory
    obtain heq : Path.parentName = plan.pattern := by
      have hmem := List.mem_of_mem_filter hpattern
      rw [Text.splitOn_eq_singleton hslash] at hmem
      exact List.mem_singleton.1 hmem
    have hlast : Path.names (Path.join plan.root plan.pattern) = Path.names plan.root ++ [Path.parentName] := by
      rw [← heq, Path.names_join rfl]
      rfl
    rw [FileSystem.isFile_of_parent_last (Path.isAbsolute_join hsound.isAbsolute _) hlast] at hfile
    cases hfile
  · refine hsound.not_mem_names_join hpattern ?_
    rw [hnames]
    exact List.mem_append_right _ List.mem_cons_self

/-! ## 2. What is loaded -/

/-- What the bytes of the one file of a plan give, and what is told about them: only an encoding can be at fault. -/
def ofBytes [Charsets] (fs : FileSystem) (plan : SearchPlan) (encoding : Text) (location : Location)
    (bytes : Bytes) : Except Abort (Option Embedding × List Diagnostic) :=
  let path := Path.normalize (Path.join plan.root plan.pattern)
  match decodeContent bytes encoding with
  | .ok content => .ok (some (.one (.ofContent fs plan.root path content)), [])
  | .error .embeddedNul => .error .encodingNul
  | .error e => .ok (none, [.errorAt location ((ReadError.encoding e).report path)])

/-- The one file of a plan is read by the normal form of its path. -/
theorem load_eq_of_single [Charsets] (hsingle : plan.single = true) (encoding : Text) (location : Location) :
    (load fs plan encoding location).map (fun r => (r.1, Event.diagnostics r.2)) =
      match fs.read (Path.normalize (Path.join plan.root plan.pattern)) with
      | .ok bytes => ofBytes fs plan encoding location bytes
      | .error e => .ok (none,
          [.errorAt location ((ReadError.file e).report (Path.normalize (Path.join plan.root plan.pattern)))]) := by
  unfold load loadOne ofBytes FileSystem.readContent
  rw [if_pos hsingle]
  dsimp only
  cases fs.read (Path.normalize (Path.join plan.root plan.pattern)) with
  | error e => rfl
  | ok bytes =>
    dsimp only
    cases decodeContent bytes encoding with
    | ok content => rfl
    | error e => cases e <;> rfl

/-- If a target tells a file, then what is loaded is made of the bytes of that very file, the one that the path leads to
as it is written, unless a `..` takes back the name of a link.  Without a base path none does, nor if the target never
goes up. -/
theorem single_load_reads_target [Charsets] (hcwd : Path.isAbsolute fs.cwd = true)
    (hplan : ofTarget fs moduleId basePath target = plan) (hsingle : plan.single = true) :
    (basePath = [] ∨ Path.parentName ∉ Path.names target →
        ¬ fs.TakesBackLink (Path.join plan.root plan.pattern)) ∧
      (¬ fs.TakesBackLink (Path.join plan.root plan.pattern) →
        fs.locate true (Path.normalize (Path.join plan.root plan.pattern)) =
            fs.locate true (Path.join plan.root plan.pattern) ∧
          ∃ bytes, fs.read (Path.join plan.root plan.pattern) = .ok bytes ∧
            ∀ encoding location, (load fs plan encoding location).map (fun r => (r.1, Event.diagnostics r.2)) =
              ofBytes fs plan encoding location bytes) := by
  refine ⟨not_takesBackLink hcwd hplan hsingle, fun hback => ?_⟩
  have hsound : plan.IsSound fs := hplan ▸ isSound_ofTarget (Path.isAbsolute_join hcwd moduleId) basePath target
  have habsolute := Path.isAbsolute_join hsound.isAbsolute plan.pattern
  obtain ⟨hspot, bytes, hread, hreadNormal⟩ :=
    FileSystem.read_normalize habsolute hback (hsound.single hsingle).2
  refine ⟨hspot, bytes, hread, fun encoding location => ?_⟩
  rw [load_eq_of_single hsingle, hreadNormal]

end SearchPlan

/-- A directory with a file, and in it another directory with a file, to which there is a link. -/
def linkedTree : FileSystem where
  entries := [
    ("o".toList, .directory [
      ("a".toList, .file [120]),
      ("s".toList, .directory [("b".toList, .file [121])])]),
    ("l".toList, .link "o/s".toList)]
  cwd := ['/']

/-- The plan of a target in a module beside them, seen from the directory of the module. -/
def linkedPlan (target : Text) : SearchPlan :=
  SearchPlan.ofTarget linkedTree "/m.js".toList ".".toList target

def linkedLocation : Location := ⟨"/m.js".toList, 1, 0⟩

/-- A file behind the link is loaded. -/
theorem single_load_reads_target_linkedTree :
    (linkedPlan "l/b".toList).single = true ∧
      (load linkedTree (linkedPlan "l/b".toList) "utf8".toList linkedLocation).map
          (fun r => (r.1, Event.diagnostics r.2)) =
        .ok (some (.one ⟨['y'], "/l/b".toList, "l/b".toList⟩), []) := by
  have hsingle : (linkedPlan "l/b".toList).single = true := by decide +kernel
  have hplan : SearchPlan.ofTarget linkedTree "/m.js".toList ".".toList "l/b".toList = linkedPlan "l/b".toList := rfl
  have hcwd : Path.isAbsolute linkedTree.cwd = true := rfl
  obtain ⟨hnone, hload⟩ := SearchPlan.single_load_reads_target hcwd hplan hsingle
  obtain ⟨-, bytes, hread, hloaded⟩ := hload (hnone (.inr (by decide +kernel)))
  have hbytes : linkedTree.read (Path.join (linkedPlan "l/b".toList).root (linkedPlan "l/b".toList).pattern) =
      .ok [121] := by
    decide +kernel
  obtain rfl : [121] = bytes := by
    rw [hbytes] at hread
    exact Except.ok.inj hread
  refine ⟨hsingle, (hloaded _ _).trans ?_⟩
  decide +kernel

/-- A target that goes up from the link tells the file in the directory above the one that the link leads to; what is
read is a file beside the link, which is not there. -/
theorem single_load_misses_target :
    (linkedPlan "l/../a".toList).single = true ∧
      linkedTree.read (Path.join (linkedPlan "l/../a".toList).root (linkedPlan "l/../a".toList).pattern) = .ok [120] ∧
      (load linkedTree (linkedPlan "l/../a".toList) "utf8".toList linkedLocation).map
          (fun r => (r.1, Event.diagnostics r.2)) =
        .ok (none, [.errorAt linkedLocation ((ReadError.file ⟨.notFound, "/a".toList⟩).report "/a".toList)]) := by
  have hsingle : (linkedPlan "l/../a".toList).single = true := by decide +kernel
  have hpath : Path.normalize (Path.join (linkedPlan "l/../a".toList).root (linkedPlan "l/../a".toList).pattern) =
      "/a".toList := by
    decide +kernel
  have hread : linkedTree.read "/a".toList = .error ⟨.notFound, "/a".toList⟩ := by decide +kernel
  refine ⟨hsingle, by decide +kernel, ?_⟩
  rw [SearchPlan.load_eq_of_single hsingle, hpath, hread]

end AssetEmbed
