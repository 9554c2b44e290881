import InterfacePackage.Proofs.Export.Assembly
import InterfacePackage.Proofs.FileTree.Grow

/-!
# Parts put in place

What the parts of an export leave in a settled directory, when they succeed.
Main statements: `copyFile_ok` and `exportInterface_ok`.
-/

namespace InterfacePackage.Export

open FileTree

variable {s s' : Session} {dir path source : Path} {here : Place} {names : List Name}

/-! ## Files -/

section

variable (h : Settled s.tree dir here) (hpath : dir.IsInto path names) (hnames : names ≠ [])

include h hpath hnames

/-- Making the directory above a path paves the way to it. -/
theorem makeParent_paves (hrun : outcome (makeParent path) s = (.ok (), s')) :
    Paves s.tree here (here ++ names) s'.tree := by
  unfold makeParent at hrun
  cases hparent : path.parent with
  | none =>
    rw [hparent] at hrun
    cases hrun
    exact .refl h.proper here _
  | some above =>
    rw [hparent] at hrun
    have hpaves := h.paves_parent hpath hnames hparent
    rwa [outcome_of_alter hrun] at hpaves

/-- A text written behind a paved way is laid down. -/
theorem writeFile_lays {t : FileTree} {text : Text} (hpaves : Paves t here (here ++ names) s.tree)
    (hrun : outcome (writeFile path text) s = (.ok (), s')) :
    Lays t here (here ++ names) (Utf8.encode text) s'.tree := by
  have hputs := h.write_into hpath (eq_ok_of_alter_change hrun)
  exact hpaves.lays (isBelow_append here hnames) hputs

/-- A file copied into the directory is laid down, and its source is a file that was there before.
-/
theorem copyFile_ok (hrun : outcome (copyFile source path) s = (.ok (), s')) :
    ∃ there content, IsFile (s.tree.entryAt there) ∧
      Lays s.tree here (here ++ names) content s'.tree ∧
      s'.tree.lookup source = .ok (there, .file content) ∧
      s'.tree.lookup path = .ok (here ++ names, .file content) := by
  obtain ⟨_, s₁, hparent, hcopy⟩ := outcome_bind_eq_ok.1 hrun
  have hpaves := makeParent_paves h hpath hnames hparent
  have hsettled := h.fills hpaves.fills
  obtain ⟨there, bytes, content, hlookup, hputs, hfound⟩ :=
    hsettled.lays_copy hpath (eq_ok_of_alter_change hcopy)
  obtain ⟨-, hentry, -⟩ := denotes_of_lookup hsettled.proper.sound hlookup
  refine ⟨there, content, ⟨bytes, ?_⟩, hpaves.lays (isBelow_append here hnames) hputs, hfound⟩
  -- making directories has brought no file
  rw [hpaves.entryAt_eq (by simp [hentry]), hentry]

end

/-! ## Interfaces -/

/-- The place of the relocated source of an interface. -/
def contractPlace (here : Place) (ns : List Text) : Place :=
  here ++ Utf8.encode "contracts" :: ns.map Utf8.encode

/-- The place of the compiled interface of a name. -/
def abiPlace (here : Place) (name : Text) : Place :=
  here ++ [Utf8.encode "abi", Utf8.encode (name ++ ".json")]

variable {workspace : Path} {c : Config} {table : Import.Table} {ns : List Text}

/-- An interface that is exported with nothing in between has its relocated source laid down first,
and its compiled form then. -/
theorem exportInterface_ok (habs : workspace.isAbsolute = true)
    (h : Settled s.tree (workspace.join c.exportDir) here) (hns : ∀ n ∈ ns, IsNormal n)
    {n : Text} (hlast : ns.getLast? = some n) {x : ExportedInterface}
    (hrun : outcome (exportInterface workspace c table (interfacePath c ns)) s = (.ok x, s')) :
    ∃ source t there content,
      s.tree.readText (workspace.join (interfacePath c ns)) = .ok source ∧
      Lays s.tree here (contractPlace here ns)
        (Utf8.encode (relocatedSource c table ns source).text) t ∧
      IsFile (t.entryAt there) ∧ Lays t here (abiPlace here (Path.stemOf n)) content s'.tree ∧
      s'.tree.lookup (artifactPath workspace c n (Path.stemOf n)) = .ok (there, .file content) ∧
      s'.tree.lookup (abiPath workspace c (Path.stemOf n))
        = .ok (abiPlace here (Path.stemOf n), .file content) ∧
      x = reportOf c ns (Path.stemOf n) (relocatedSource c table ns source) := by
  rw [exportInterface_eq workspace c table hns hlast] at hrun
  obtain ⟨source, s₁, hsource, hrest⟩ := outcome_bind_eq_ok.1 hrun
  obtain ⟨hread, rfl⟩ := outcome_inspect_eq_ok.1 hsource
  obtain ⟨_, s₂, hparent, hrest⟩ := outcome_bind_eq_ok.1 hrest
  obtain ⟨_, s₃, hwrite, hrest⟩ := outcome_bind_eq_ok.1 hrest
  obtain ⟨_, s₄, hartifact, hcopying⟩ := outcome_bind_eq_ok.1 hrest
  obtain ⟨-, rfl⟩ := outcome_inspect_eq_ok.1 hartifact
  obtain ⟨_, s₅, hcopy, hreturn⟩ := outcome_bind_eq_ok.1 hcopying
  cases hreturn
  -- the source first, behind the way that is paved to it
  have hinto := isInto_contract habs c hns
  have hpaves := makeParent_paves h hinto (by simp) hparent
  have hlays := writeFile_lays (h.fills hpaves.fills) hinto (by simp) hpaves hwrite
  -- then the compiled form, in the tree that has the source
  have hname := interfaceName_interfacePath c hns hlast
  obtain ⟨there, content, hthere, habi, hfound, hcompiled⟩ := copyFile_ok (h.fills hlays.fills)
    (isInto_abi habs c (isNormal_compiled hname)) (by simp) hcopy
  exact ⟨source, s₄.tree, there, content, eq_ok_of_mapError_eq_ok hread, hlays, hthere, habi,
    hfound, hcompiled, rfl⟩

end InterfacePackage.Export
