import InterfacePackage.Proofs.Export.Guard
import InterfacePackage.Proofs.FileTree.Endpoint

/-!
# What the guard of the export directory refuses

The guard looks at two spellings only. In a tree without links it still tells exactly whether the
export directory is the workspace or lies around it, as long as its path climbs from directories
only. Main statement: `prepare_refuses_iff`.
-/

namespace InterfacePackage.Export

open FileTree

variable {workspace exportDir : Path} {s s' : Session} {w : Place}

/-- Preparing is refused exactly if the export directory encloses the workspace by its spelling. -/
theorem refused_iff_encloses (ht : s.tree.IsProper) (hdir : exportDir ≠ [])
    {result : Except Failure Unit}
    (hrun : outcome (prepare workspace exportDir) s = (result, s')) :
    (∃ e, result = .error e ∧ e.IsRefusal) ↔ encloses exportDir workspace = true := by
  constructor
  · rintro ⟨e, rfl, hrefusal⟩
    cases preparing_of_outcome ht hdir hrun with
    | refused hguard => exact hguard
    | blocked _ _ =>
      obtain ⟨_, _, h⟩ := hrefusal
      cases h
    | made _ _ _ hother _ => exact absurd hrefusal (hother e rfl)
    | emptied _ _ _ hother _ => exact absurd hrefusal (hother e rfl)
  · intro hguard
    rw [prepare_of_encloses hguard] at hrun
    cases hrun
    exact ⟨_, rfl, _, _, rfl⟩

/-- A refusal names both paths, and nothing is touched before it. -/
theorem refusal_spec (ht : s.tree.IsProper) (hdir : exportDir ≠ []) {result : Except Failure Unit}
    (hrun : outcome (prepare workspace exportDir) s = (result, s')) {e : Failure}
    (he : result = .error e) (hrefusal : e.IsRefusal) :
    e = .unsafeExportDir exportDir workspace ∧ s' = s := by
  have hguard := (refused_iff_encloses ht hdir hrun).1 ⟨e, he, hrefusal⟩
  rw [prepare_of_encloses hguard] at hrun
  cases hrun
  cases he
  exact ⟨rfl, rfl⟩

/-- A path that climbs from directories only encloses a directory by its spelling exactly if it
denotes that directory or one around it. -/
theorem encloses_iff_denotes {t : FileTree} (ht : t.IsProper) (hlinks : t.IsLinkless)
    (habs : workspace.isAbsolute = true) (hw : t.Denotes workspace w)
    (hdirectory : t.entryAt w = some .directory) (hdir : exportDir.isAbsolute = true)
    (hclimbs : t.ClimbsFromDirectories exportDir) :
    encloses exportDir workspace = true ↔
      ∃ here, here <+: w ∧ t.Denotes exportDir here ∧ t.entryAt here = some .directory := by
  obtain rfl := hw.eq_endpoint hlinks habs
  rw [encloses_iff hdir habs]
  constructor
  · intro hprefix
    -- around a directory there are directories only, so the spelling leads into one
    have hworkspace : t.DenotesDirectory workspace := ⟨_, hw, hdirectory⟩
    have henter := (hworkspace.denotes hlinks habs).2.around ht.sound hprefix
    have hdenotes := (denotesDirectory_iff_of_climbs ht.sound hlinks hdir hclimbs).2 henter
    exact ⟨_, hprefix, (hdenotes.denotes hlinks hdir).1, henter.directory⟩
  · rintro ⟨here, hprefix, hdenotes, -⟩
    rwa [← hdenotes.eq_endpoint hlinks hdir]

/-- In a tree without links an export directory whose path climbs from directories only is refused
exactly if the path denotes the workspace or a directory around it, and then nothing has been
touched. A path that passes as one denotes a directory exactly if it is found there. -/
theorem prepare_refuses_iff (ht : s.tree.IsProper) (hlinks : s.tree.IsLinkless)
    (habs : workspace.isAbsolute = true) (hw : s.tree.Denotes workspace w)
    (hdirectory : s.tree.entryAt w = some .directory) (hdir : exportDir.isAbsolute = true)
    (hclimbs : s.tree.ClimbsFromDirectories exportDir) {result : Except Failure Unit}
    (hrun : outcome (prepare workspace exportDir) s = (result, s')) :
    ((∃ e, result = .error e ∧ e.IsRefusal) ↔ ∃ here, here <+: w ∧
        s.tree.Denotes exportDir here ∧ s.tree.entryAt here = some .directory) ∧
      (vet exportDir = .ok () →
        ((∃ e, result = .error e ∧ e.IsRefusal) ↔ HoldsPlace s.tree exportDir w)) ∧
      ∀ e, result = .error e → e.IsRefusal →
        e = .unsafeExportDir exportDir workspace ∧ s' = s := by
  have hne := Path.ne_nil_of_isAbsolute hdir
  have hrefused := (refused_iff_encloses ht hne hrun).trans
    (encloses_iff_denotes ht hlinks habs hw hdirectory hdir hclimbs)
  refine ⟨hrefused, fun hvet => hrefused.trans ⟨?_, ?_⟩, fun e he hrefusal =>
    refusal_spec ht hne hrun he hrefusal⟩
  · rintro ⟨here, hprefix, hdenotes, hhere⟩
    exact ⟨here, lookup_of_denotes ht.sound hvet hdenotes hhere, prefix_iff.1 hprefix⟩
  · rintro ⟨here, hlookup, hhere⟩
    obtain ⟨hdenotes, hentry, -⟩ := denotes_of_lookup ht.sound hlookup
    exact ⟨here, prefix_iff.2 hhere, hdenotes, hentry⟩

/-- The workspace, spelled with a step up and a dot, is refused as an export directory. -/
theorem prepare_refuses_plainProject :
    plainProject.IsLinkless ∧
      plainProject.ClimbsFromDirectories ['/', 'w', 's', '/', '.', '.', '/', 'w', 's', '/', '.'] ∧
      ∃ e, (outcome (prepare ['/', 'w', 's']
          ['/', 'w', 's', '/', '.', '.', '/', 'w', 's', '/', '.']) { tree := plainProject }).1
            = .error e ∧ e.IsRefusal := by
  have hlinks : plainProject.IsLinkless := by decide +kernel
  have hclimbs : plainProject.ClimbsFromDirectories
      ['/', 'w', 's', '/', '.', '.', '/', 'w', 's', '/', '.'] :=
    climbsFromDirectories_of_forall plainProject_isProper.sound (by decide +kernel)
  have hws : plainProject.lookup ['/', 'w', 's'] = .ok ([Utf8.encode ['w', 's']], .directory) := rfl
  obtain ⟨hw, hdirectory, -⟩ := denotes_of_lookup plainProject_isProper.sound hws
  have hiff := @prepare_refuses_iff ['/', 'w', 's']
    ['/', 'w', 's', '/', '.', '.', '/', 'w', 's', '/', '.'] { tree := plainProject } _ _
    plainProject_isProper hlinks rfl hw hdirectory rfl hclimbs _ rfl
  have hdir : plainProject.lookup ['/', 'w', 's', '/', '.', '.', '/', 'w', 's', '/', '.']
      = .ok ([Utf8.encode ['w', 's']], .directory) := rfl
  exact ⟨hlinks, hclimbs, (hiff.2.1 rfl).2 ⟨_, hdir, .inl rfl⟩⟩

end InterfacePackage.Export
