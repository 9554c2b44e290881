import InterfacePackage.Proofs.Export.Prepare
import InterfacePackage.Proofs.FileTree.Lexical

/-!
# What the guard of the export directory is worth

An export directory is refused when by its spelling it encloses the workspace, while it is emptied
wherever its path leads. Without links both agree, and the workspace's own files are never touched;
through links the guard can be passed. Main statement: `prepare_spares`.
-/

namespace InterfacePackage.Export

open FileTree

variable {workspace setting : Path} {s s' : Session} {w : Place}

/-- A directory is still there, with every regular file that lay right in it. -/
structure Spares (t t' : FileTree) (w : Place) : Prop where
  directory : t'.entryAt w = some .directory
  files : ∀ n content, t.entryAt (w ++ [n]) = some (.file content) →
    t'.entryAt (w ++ [n]) = some (.file content)

/-- A path denotes a directory that is the one at `w` or holds it. -/
def HoldsPlace (t : FileTree) (dir : Path) (w : Place) : Prop :=
  ∃ here, t.lookup dir = .ok (here, .directory) ∧ (here = w ∨ isBelow here w = true)

/-- Removing what is below another directory spares one that this does not hold. -/
theorem Spares.of_strips {t t' : FileTree} {here : Place} (hstrips : Strips t here t')
    (hw : t.entryAt w = some .directory) (hhere : ¬ (here = w ∨ isBelow here w = true)) :
    Spares t t' w where
  directory := by rw [hstrips.entryAt_eq fun h => hhere (.inr h), hw]
  files n content hfile := by
    rw [hstrips.entryAt_eq fun h => hhere (isBelow_snoc.1 h), hfile]

theorem Spares.of_builds {t t' : FileTree} {path : Path} (hbuilds : Builds t path t')
    (hw : t.entryAt w = some .directory) : Spares t t' w :=
  ⟨hbuilds.kept hw, fun _ _ hfile => hbuilds.kept hfile⟩

/-- One absolute path encloses another exactly if by its spelling it leads to where the other leads
or around it. -/
theorem encloses_iff {outer inner : Path} (houter : outer.isAbsolute = true)
    (hinner : inner.isAbsolute = true) :
    encloses outer inner = true ↔ outer.endpoint <+: inner.endpoint := by
  obtain ⟨ns, hns, hto⟩ := Path.confine_components houter
  obtain ⟨ms, hms, hto'⟩ := Path.confine_components hinner
  have hnames : Path.names ns <+: Path.names ms ↔ ns <+: ms :=
    List.prefix_map_iff_of_injective fun _ _ => Component.name.inj
  -- names with the same bytes are the same names
  have hbytes : ns.map Utf8.encode <+: ms.map Utf8.encode ↔ ns <+: ms :=
    List.prefix_map_iff_of_injective fun _ _ => Utf8.encode_injective
  rw [encloses, List.isPrefixOf_iff_prefix, hns, hms, List.cons_prefix_cons, and_iff_right rfl,
    hnames, hto, hto', hbytes]

/-- Without links a path that denotes a directory around the workspace encloses it by its spelling
as well. -/
theorem encloses_of_holdsPlace {t : FileTree} (ht : t.IsProper) (hlinks : t.IsLinkless)
    (habs : workspace.isAbsolute = true) (hw : t.lookup workspace = .ok (w, .directory))
    (hholds : HoldsPlace t (workspace.join setting) w) :
    encloses (workspace.join setting) workspace = true := by
  obtain ⟨here, hlookup, hhere⟩ := hholds
  have hdirAbs := Path.isAbsolute_join_of_isAbsolute habs setting
  rw [encloses_iff hdirAbs habs,
    ← (denotes_of_lookup ht.sound hlookup).1.eq_endpoint hlinks hdirAbs,
    ← (denotes_of_lookup ht.sound hw).1.eq_endpoint hlinks habs]
  exact prefix_iff.2 hhere

/-- What preparing an export directory that is not refused does to the workspace. Its own files
survive unless the path denotes a directory that is the workspace or holds it, whatever comes of
preparing; if it does and preparing succeeds, no regular file is left in the workspace. Without
links and with an absolute workspace that never happens. -/
theorem prepare_spares (ht : s.tree.IsProper) (hw : s.tree.lookup workspace = .ok (w, .directory))
    {result : Except Failure Unit}
    (hrun : outcome (prepare workspace (workspace.join setting)) s = (result, s'))
    (hpassed : ∀ e, result = .error e → ¬ e.IsRefusal) :
    (¬ HoldsPlace s.tree (workspace.join setting) w → Spares s.tree s'.tree w) ∧
      (HoldsPlace s.tree (workspace.join setting) w → result = .ok () →
        ∀ n content, s'.tree.entryAt (w ++ [n]) ≠ some (.file content)) ∧
      (s.tree.IsLinkless → workspace.isAbsolute = true → Spares s.tree s'.tree w) := by
  obtain ⟨-, hdirectory, hvet⟩ := denotes_of_lookup ht.sound hw
  have hdir : workspace.join setting ≠ [] := Path.join_ne_nil (ne_nil_of_vet hvet) setting
  have hguard : encloses (workspace.join setting) workspace = false := by
    rw [Bool.eq_false_iff]
    intro h
    rw [prepare_of_encloses h] at hrun
    cases hrun
    exact hpassed _ rfl ⟨_, _, rfl⟩
  have hspares : ¬ HoldsPlace s.tree (workspace.join setting) w → Spares s.tree s'.tree w := by
    intro hholds
    cases hlookup : s.tree.lookup (workspace.join setting) with
    | error fault =>
      have hmissing : s.tree.exists? (workspace.join setting) = false := by
        rw [exists?, hlookup]
        rfl
      exact .of_builds (prepare_of_missing hguard ht hmissing hrun).1 hdirectory
    | ok found =>
      obtain ⟨here, e⟩ := found
      by_cases he : e = .directory
      · subst he
        exact .of_strips (prepare_of_directory hguard ht hdir hlookup hrun).1 hdirectory
          fun hhere => hholds ⟨here, hlookup, hhere⟩
      · rw [prepare_of_other hguard hlookup he] at hrun
        cases hrun
        exact ⟨hdirectory, fun _ _ hfile => hfile⟩
  refine ⟨hspares, ?_, fun hlinks habs => hspares fun hholds => ?_⟩
  · rintro ⟨here, hlookup, hhere⟩ hok n content hfile
    obtain ⟨-, -, hempty⟩ := prepare_of_directory hguard ht hdir hlookup hrun
    -- what is left is a directory, and no file
    rcases hempty hok (w ++ [n]) (isBelow_snoc.2 hhere) with hnone | ⟨hleft, -⟩
    · rw [hnone] at hfile
      cases hfile
    · rw [hleft] at hfile
      cases hfile
  · rw [encloses_of_holdsPlace ht hlinks habs hw hholds] at hguard
    cases hguard

/-! ## Past the guard -/

/-- A project in `/ws` and nothing else. -/
def plainProject : FileTree :=
  (FileTree.put ⟨∅, []⟩ [Utf8.encode ['w', 's']] .directory).put
    [Utf8.encode ['w', 's'], Utf8.encode ['p', 'k', 'g']] (.file [])

/-- The same project, with a link to it at `/out`. -/
def linkedProject : FileTree :=
  plainProject.put [Utf8.encode ['o', 'u', 't']] (.link ['/', 'w', 's'])

theorem plainProject_isProper : plainProject.IsProper := by decide +kernel

theorem linkedProject_isProper : linkedProject.IsProper := by decide +kernel

/-- An export directory in the project spares it. -/
theorem prepare_spares_plainProject :
    plainProject.lookup ['/', 'w', 's'] = .ok ([Utf8.encode ['w', 's']], .directory) ∧
      (outcome (prepare ['/', 'w', 's'] (Path.join ['/', 'w', 's'] ['n', 'p', 'm']))
        { tree := plainProject }).1 = .ok () ∧
      Spares plainProject
        (outcome (prepare ['/', 'w', 's'] (Path.join ['/', 'w', 's'] ['n', 'p', 'm']))
          { tree := plainProject }).2.tree [Utf8.encode ['w', 's']] := by
  have hlookup : plainProject.lookup ['/', 'w', 's']
      = .ok ([Utf8.encode ['w', 's']], .directory) := rfl
  have hspares := @prepare_spares ['/', 'w', 's'] ['n', 'p', 'm'] { tree := plainProject } _ _
    plainProject_isProper hlookup _ rfl nofun
  refine ⟨hlookup, rfl, hspares.1 ?_⟩
  rintro ⟨here, hfound, -⟩
  have hmissing : plainProject.lookup (Path.join ['/', 'w', 's'] ['n', 'p', 'm'])
      = .error .notFound := rfl
  rw [hmissing] at hfound
  cases hfound

/-- Through the link the project is emptied, and preparing succeeds. -/
theorem prepare_empties_linkedProject :
    linkedProject.IsProper ∧
      linkedProject.lookup ['/', 'w', 's'] = .ok ([Utf8.encode ['w', 's']], .directory) ∧
      (outcome (prepare ['/', 'w', 's'] (Path.join ['/', 'w', 's'] ['/', 'o', 'u', 't']))
        { tree := linkedProject }).1 = .ok () ∧
      ¬ Spares linkedProject
        (outcome (prepare ['/', 'w', 's'] (Path.join ['/', 'w', 's'] ['/', 'o', 'u', 't']))
          { tree := linkedProject }).2.tree [Utf8.encode ['w', 's']] := by
  refine ⟨linkedProject_isProper, rfl, rfl, fun hspares => ?_⟩
  have hgone : (outcome (prepare ['/', 'w', 's'] (Path.join ['/', 'w', 's'] ['/', 'o', 'u', 't']))
      { tree := linkedProject }).2.tree.entryAt
        ([Utf8.encode ['w', 's']] ++ [Utf8.encode ['p', 'k', 'g']]) = none := rfl
  rw [hspares.files (Utf8.encode ['p', 'k', 'g']) [] rfl] at hgone
  cases hgone

end InterfacePackage.Export
