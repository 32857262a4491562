import AssetEmbed.Modules
import AssetEmbed.Proofs.FileSystem.Visiting
import AssetEmbed.Proofs.FileSystem.Reading
import AssetEmbed.Proofs.Sorting

/-!
# Enumerating — the modules below a root

The modules below a root are found by a walk that goes down into each directory but those that are left out: links, the
directory of version control, and what is pruned.  Each module to which no such directory leads is found, once; files
come before what lies in the directories beside them, and both come by name.
-/

namespace AssetEmbed

/-! ## 1. The order of a walk -/

namespace WalkOrder

variable {way way' : List Text}

end WalkOrder

/-! ## 2. The modules of a walk -/

section

variable {rule : WalkRule} {here : List Text} {keeps : Text → Bool}

end

/-! ## 3. Modules -/

namespace FileSystem

variable {fs : FileSystem} {root real : Text} {extensions : List Text} {prunes : Text → Bool}

/-- Whether there is a module below the directory that a path leads to, at the end of the names of some directories and
of its own name.  A link that leads to a directory is no module, and none is found through one. -/
structure FindsModule (fs : FileSystem) (real : Text) (extensions : List Text) (prunes : Text → Bool)
    (above : List Text) (name : Text) : Prop where
  entry : ∃ top entry, fs.entry? real = .ok top ∧
    (∀ q, q <+: above → ∃ l, top.at? q = some (.directory l)) ∧ top.at? (above ++ [name]) = some entry ∧
      (∀ l, entry ≠ .directory l) ∧
      ∀ target, entry = .link target → fs.isDirectory (below real (above ++ [name])) = false
  extension : (Path.suffix name).lower ∈ extensions
  not_versionControl : versionControlName ∉ above
  not_pruned : ∀ q, q <+: above → q ≠ [] → prunes (Text.joinWith '/' q) = false

theorem WellFormed.isSound_of_entry? (hfs : fs.WellFormed) {path : Text} {e : Entry} (h : fs.entry? path = .ok e) :
    e.IsSound := by
  obtain ⟨spot, -, hplace⟩ := bind_eq_ok.1 h
  split at hplace
  · split at hplace
    · rename_i he
      cases hplace
      exact Listing.IsSound.at? hfs he
    · cases hplace
  · cases hplace

theorem FindsModule.isProper (hfs : fs.WellFormed) {above : List Text} {name : Text}
    (h : fs.FindsModule real extensions prunes above name) : Place.IsProper (above ++ [name]) := by
  obtain ⟨top, entry, htop, -, hentry, -⟩ := h.entry
  exact (hfs.isSound_of_entry? htop).isProper_of_at? hentry

end FileSystem

end AssetEmbed
