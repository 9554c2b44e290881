import InterfacePackage.Proofs.Export.Confinement
import InterfacePackage.Proofs.Export.Placement

/-!
# The front of a package

In a tree without links the export directory is empty when it has been prepared, and manifest,
readme and license are the only things in it before the interfaces come. Main statements:
`prepare_empties` and `writeFront_ok`.
-/

namespace InterfacePackage.Export

open FileTree

variable {t : FileTree} {s s' : Session} {workspace dir : Path} {c : Config} {here p q : Place}
  {n : Name} {content : Bytes}

/-! ## An empty directory -/

/-- Without links and without climbing, nothing on the way of a path is below where it leads. -/
theorem not_isBelow_of_onWay (ht : t.IsProper) (hlinks : t.IsLinkless)
    (habs : dir.isAbsolute = true) (hup : .up ∉ dir.route) (hdir : t.Denotes dir here)
    (hway : OnWay t dir q) : ¬ isBelow here q = true := by
  intro hbelow
  obtain ⟨above, habove, hlookup⟩ := hway
  obtain ⟨habs', back, hpieces⟩ := Path.pieces_of_mem_ancestors habs habove
  obtain ⟨hdenotes, -, -⟩ := denotes_of_lookup ht.sound hlookup
  have hroute : dir.route = above.route ++ back.map Step.ofComponent := by
    rw [Path.route, hpieces, List.map_append]
    rfl
  have hback : .up ∉ back.map Step.ofComponent := by
    rw [hroute, List.mem_append, not_or] at hup
    exact hup.2
  obtain ⟨names, hnames⟩ := exists_append_of_foldl_move hback q
  -- what is above on the way leads on to the directory by names only
  have hhere : here = q ++ names := by
    rw [Reaches.place_eq hlinks hdir, startOf_of_isAbsolute t habs, hroute, List.foldl_append,
      ← startOf_of_isAbsolute t habs', ← Reaches.place_eq hlinks hdenotes, hnames]
  obtain ⟨m, rest, hq⟩ := isBelow_iff.1 hbelow
  have hlength := congrArg List.length hq
  rw [hhere, List.length_append, List.length_append, List.length_cons] at hlength
  omega

/-- Nothing is left in a prepared export directory that its path leads to. -/
theorem prepare_empties (ht : s.tree.IsProper) (hlinks : s.tree.IsLinkless)
    (habs : dir.isAbsolute = true) (hup : .up ∉ dir.route)
    (hrun : outcome (prepare workspace dir) s = (.ok (), s'))
    (h : Prepared s.tree dir here s'.tree) (hdenotes : s'.tree.Denotes dir here)
    (hq : isBelow here q = true) : s'.tree.entryAt q = none := by
  have hdir : dir ≠ [] := Path.ne_nil_of_isAbsolute habs
  have hguard : encloses dir workspace = false := by
    cases hencloses : encloses dir workspace with
    | false => rfl
    | true =>
      rw [prepare_of_encloses hencloses] at hrun
      cases hrun
  cases h.history with
  | emptied hlookup hstrips =>
    obtain ⟨-, -, hempty⟩ := prepare_of_directory hguard ht hdir hlookup hrun
    exact (hempty rfl q hq).resolve_right fun hleft => hleft.2 hdenotes
  | created hmissing hnew hlookup hbuilds =>
    -- nothing was below a place where nothing was, so all of it is new and on the way
    have hold : s.tree.entryAt q = none := ht.sound.none_below (by simp [hnew]) hq
    rcases hbuilds.entry q with hsame | ⟨-, -, hway⟩
    · rw [hsame, hold]
    · exact absurd hq
        (not_isBelow_of_onWay h.proper (hbuilds.isLinkless hlinks) habs hup hdenotes hway)

/-- A prepared export directory is found under its path if that leads there. -/
theorem Prepared.lookup {t₁ : FileTree} (h : Prepared t dir here t₁) (ht : t.IsProper)
    (hdenotes : t₁.Denotes dir here) : t₁.lookup dir = .ok (here, .directory) := by
  cases h.history with
  | emptied hlookup hstrips =>
    obtain ⟨-, -, hvet⟩ := denotes_of_lookup ht.sound hlookup
    exact lookup_of_denotes h.proper.sound hvet hdenotes h.directory
  | created hmissing hnew hlookup hbuilds => exact hlookup

/-- Preparing brings no links. -/
theorem Prepared.isLinkless {t₁ : FileTree} (h : Prepared t dir here t₁) (hlinks : t.IsLinkless) :
    t₁.IsLinkless := by
  cases h.history with
  | emptied hlookup hstrips => exact hstrips.isLinkless hlinks
  | created hmissing hnew hlookup hbuilds => exact hbuilds.isLinkless hlinks

/-! ## Manifest, readme and license -/

/-- A file laid down right in a directory is the only change. -/
theorem entryAt_of_lays_name {t' : FileTree} (h : Lays t here (here ++ [n]) content t')
    (hp : p ≠ here ++ [n]) : t'.entryAt p = t.entryAt p := by
  rcases h.entry p hp with hsame | ⟨⟨habove, hbelow⟩, -, -⟩
  · exact hsame
  · exact absurd hbelow (not_isBelow_snoc habove)

/-- The front of a package: its manifest, and copies of the project's readme and license. -/
structure HasFront (t : FileTree) (workspace : Path) (c : Config) (here : Place) : Prop where
  manifest : ∃ project, ProjectManifest.load t (workspace.join "package.json") = .ok project ∧
    t.entryAt (here ++ [Utf8.encode "package.json"])
      = some (.file (Utf8.encode (PackageManifest.assemble project c).text))
  readme : ∃ content, t.read (workspace.join c.readme) = .ok content ∧
    t.entryAt (here ++ [Utf8.encode "README.md"]) = some (.file content)
  license : ∃ content, t.read (workspace.join c.license) = .ok content ∧
    t.entryAt (here ++ [Utf8.encode "LICENSE"]) = some (.file content)

/-- A manifest is loaded as before from a tree that has grown. -/
theorem load_of_grows {t' : FileTree} (h : Grows t here t') (ht : t.IsProper)
    (hlinks : t.IsLinkless) {path : Path} {project : ProjectManifest}
    (hload : ProjectManifest.load t path = .ok project) :
    ProjectManifest.load t' path = .ok project := by
  unfold ProjectManifest.load at hload ⊢
  cases htext : t.readText path with
  | error fault =>
    rw [htext] at hload
    cases hload
  | ok text =>
    rw [htext] at hload
    rw [h.readText ht hlinks htext]
    exact hload

/-- The front of a package stays when the directory grows. -/
theorem HasFront.grows {t' : FileTree} (h : HasFront t workspace c here) (hgrows : Grows t here t')
    (ht : t.IsProper) (hlinks : t.IsLinkless) : HasFront t' workspace c here where
  manifest := by
    obtain ⟨project, hload, hentry⟩ := h.manifest
    exact ⟨project, load_of_grows hgrows ht hlinks hload, hgrows.old _ _ hentry⟩
  readme := by
    obtain ⟨content, hread, hentry⟩ := h.readme
    exact ⟨content, hgrows.read ht hlinks hread, hgrows.old _ _ hentry⟩
  license := by
    obtain ⟨content, hread, hentry⟩ := h.license
    exact ⟨content, hgrows.read ht hlinks hread, hgrows.old _ _ hentry⟩

/-- A file copied to a new name in a settled directory is the only change. -/
theorem copyFile_name_ok (h : Settled s.tree dir here) {name : Text} (hname : IsNormal name)
    (hnone : s.tree.entryAt (here ++ [Utf8.encode name]) = none) {source : Path}
    (hrun : outcome (copyFile source (dir.join name)) s = (.ok (), s')) :
    Grows s.tree here s'.tree ∧
      (∀ p, p ≠ here ++ [Utf8.encode name] → s'.tree.entryAt p = s.tree.entryAt p) ∧
      ∃ content, s'.tree.read source = .ok content ∧
        s'.tree.entryAt (here ++ [Utf8.encode name]) = some (.file content) := by
  have hinto := Path.isInto_name h.absolute hname
  obtain ⟨there, content, -, hlays, hfound, -⟩ := copyFile_ok h hinto (by simp) hrun
  exact ⟨hlays.grows hnone, fun p hp => entryAt_of_lays_name hlays hp, content,
    read_eq_ok_iff.2 ⟨there, hfound⟩, hlays.self⟩

/-- The names of the front of a package. -/
def frontNames : List Name :=
  [Utf8.encode "package.json", Utf8.encode "README.md", Utf8.encode "LICENSE"]

/-- Each name of the front is that of a file. -/
theorem HasFront.isFile (h : HasFront t workspace c here) {n : Name}
    (hn : n ∈ frontNames) : IsFile (t.entryAt (here ++ [n])) := by
  obtain ⟨project, -, hmanifest⟩ := h.manifest
  obtain ⟨readme, -, hreadme⟩ := h.readme
  obtain ⟨license, -, hlicense⟩ := h.license
  simp only [frontNames, List.mem_cons, List.not_mem_nil, or_false] at hn
  rcases hn with rfl | rfl | rfl
  · exact ⟨_, hmanifest⟩
  · exact ⟨_, hreadme⟩
  · exact ⟨_, hlicense⟩

/-- When the front of a package has been written into an empty directory, it is all that is there.
-/
theorem writeFront_ok (h : Prepared t dir here s.tree) (hlinks : s.tree.IsLinkless)
    (hempty : s.tree.Denotes dir here → ∀ q, isBelow here q = true → s.tree.entryAt q = none)
    (habs : dir.isAbsolute = true)
    (hrun : outcome (writeFront workspace dir c) s = (.ok (), s')) :
    Settled s.tree dir here ∧ Grows s.tree here s'.tree ∧ HasFront s'.tree workspace c here ∧
      ∀ q, isBelow here q = true → s'.tree.entryAt q ≠ none →
        ∃ n ∈ frontNames, q = here ++ [n] := by
  unfold writeFront at hrun
  obtain ⟨project, s₁, hload, hrest⟩ := outcome_bind_eq_ok.1 hrun
  obtain ⟨hload, rfl⟩ := outcome_inspect_eq_ok.1 hload
  obtain ⟨_, s₂, hmanifest, hrest⟩ := outcome_bind_eq_ok.1 hrest
  obtain ⟨_, s₃, hreadme, hlicense⟩ := outcome_bind_eq_ok.1 hrest
  have hsettled := ((h.sole.writeFirst habs (by decide) _).ok rfl hmanifest).1
  have hnone := hempty hsettled.denotes
  have hname : ∀ n : Name, s₁.tree.entryAt (here ++ [n]) = none := fun n =>
    hnone _ (isBelow_append here (by simp))
  -- the manifest
  have hinto := Path.isInto_name (n := "package.json") habs (by decide)
  have hlays := writeFile_lays hsettled hinto (by simp) (.refl h.proper here _) hmanifest
  have hgrows₂ := hlays.grows (hname _)
  have hsame₂ := fun p => @entryAt_of_lays_name _ here p _ _ _ hlays
  have hlinks₂ := hgrows₂.fills.isLinkless hlinks
  have hsettled₂ := hsettled.fills hgrows₂.fills
  -- the readme
  obtain ⟨hgrows₃, hsame₃, hcopied₃⟩ := copyFile_name_ok hsettled₂ (by decide)
    (by rw [hsame₂ _ (by simpa using by decide), hname]) hreadme
  have hlinks₃ := hgrows₃.fills.isLinkless hlinks₂
  have hsettled₃ := hsettled₂.fills hgrows₃.fills
  -- the license
  obtain ⟨hgrows₄, hsame₄, hcopied₄⟩ := copyFile_name_ok hsettled₃ (by decide)
    (by rw [hsame₃ _ (by simpa using by decide), hsame₂ _ (by simpa using by decide), hname])
    hlicense
  refine ⟨hsettled, (hgrows₂.trans hgrows₃).trans hgrows₄, ⟨?_, ?_, hcopied₄⟩, fun q hq hsome => ?_⟩
  · exact ⟨project, load_of_grows hgrows₄ hsettled₃.proper hlinks₃
      (load_of_grows hgrows₃ hsettled₂.proper hlinks₂
        (load_of_grows hgrows₂ h.proper hlinks hload)),
      hgrows₄.old _ _ (hgrows₃.old _ _ hlays.self)⟩
  · obtain ⟨content, hread, hentry⟩ := hcopied₃
    exact ⟨content, hgrows₄.read hsettled₃.proper hlinks₃ hread, hgrows₄.old _ _ hentry⟩
  · refine Classical.byContradiction fun hother => hsome ?_
    have hne : ∀ n ∈ frontNames, q ≠ here ++ [n] := fun n hn hq => hother ⟨n, hn, hq⟩
    rw [hsame₄ q (hne _ (by simp [frontNames])), hsame₃ q (hne _ (by simp [frontNames])),
      hsame₂ q (hne _ (by simp [frontNames])), hnone q hq]

end InterfacePackage.Export
