import InterfacePackage.Proofs.Export.Assembly
import InterfacePackage.Proofs.Export.Guard

/-!
# An export stays in its directory

Whatever comes of an export, all that it changes lies inside the directory that its export path
denotes, apart from missing directories made along that path. Main statement: `run_confined`.
-/

namespace InterfacePackage.Export

open FileTree

variable {t t₁ t' : FileTree} {dir : Path} {here q : Place}

/-! ## What confinement means -/

/-- A place lies inside the directory that a path denotes. -/
def Inside (t : FileTree) (dir : Path) (q : Place) : Prop :=
  ∃ here, t.lookup dir = .ok (here, .directory) ∧ isBelow here q = true

/-- All that was there outside of the directory of a path is still there and unchanged, and what is
new outside of it are directories on the way of the path, made because nothing was under the
path. -/
structure Confined (t : FileTree) (dir : Path) (t' : FileTree) : Prop where
  kept : ∀ q, t.entryAt q ≠ none → ¬ Inside t dir q → t'.entryAt q = t.entryAt q
  gained : ∀ q, t.entryAt q = none → t'.entryAt q ≠ none → ¬ Inside t dir q →
    t.exists? dir = false ∧ (Inside t' dir q ∨ OnWay t' dir q)

namespace Confined

theorem refl (t : FileTree) (dir : Path) : Confined t dir t :=
  ⟨fun _ _ _ => rfl, fun _ hnone hsome _ => absurd hnone hsome⟩

/-- Changes below the directory that the path denotes. -/
theorem of_below (hlookup : t.lookup dir = .ok (here, .directory))
    (hbelow : ∀ q, ¬ isBelow here q = true → t'.entryAt q = t.entryAt q) : Confined t dir t' where
  kept q _ hinside := hbelow q fun hq => hinside ⟨here, hlookup, hq⟩
  gained q hnone hsome hinside := by
    rw [hbelow q fun hq => hinside ⟨here, hlookup, hq⟩] at hsome
    exact absurd hnone hsome

/-- Directories built along the path. -/
theorem of_builds (hmissing : t.exists? dir = false) (hbuilds : Builds t dir t') :
    Confined t dir t' where
  kept q hsome _ := by
    obtain ⟨e, he⟩ := Option.ne_none_iff_exists'.1 hsome
    rw [hbuilds.kept he, he]
  gained q hnone hsome _ := by
    rcases hbuilds.entry q with hsame | ⟨-, -, hway⟩
    · rw [hsame] at hsome
      exact absurd hnone hsome
    · exact ⟨hmissing, .inr hway⟩

end Confined

/-! ## The directory prepared -/

/-- How a prepared export directory came about: emptied, or new. -/
inductive History (t : FileTree) (dir : Path) (here : Place) (t₁ : FileTree) : Prop where
  | emptied (hlookup : t.lookup dir = .ok (here, .directory)) (hstrips : Strips t here t₁)
  | created (hmissing : t.exists? dir = false) (hnew : t.entryAt here = none)
      (hlookup : t₁.lookup dir = .ok (here, .directory)) (hbuilds : Builds t dir t₁)

/-- A prepared export directory: no links are below it, no other directory is denoted by its path,
and if its path leads there at all, then no files are below it. -/
structure Prepared (t : FileTree) (dir : Path) (here : Place) (t₁ : FileTree) : Prop where
  proper : t₁.IsProper
  directory : t₁.entryAt here = some .directory
  linkless : ∀ q, isBelow here q = true → ¬ IsLink (t₁.entryAt q)
  only : ∀ q, t₁.Denotes dir q → t₁.entryAt q = some .directory → q = here
  history : History t dir here t₁

/-- A directory that was emptied is prepared. -/
theorem Prepared.of_emptied (ht : t.IsProper) (hlookup : t.lookup dir = .ok (here, .directory))
    (hstrips : Strips t here t') (hempty : ∀ q, isBelow here q = true → t'.entryAt q = none ∨
      t'.entryAt q = some .directory ∧ ¬ t'.Denotes dir here) : Prepared t dir here t' := by
  obtain ⟨hdenotes, hdirectory, -⟩ := denotes_of_lookup ht.sound hlookup
  refine ⟨hstrips.proper, ?_, fun q hq => ?_, fun q hpath hq => ?_, .emptied hlookup hstrips⟩
  · rw [hstrips.entryAt_eq (by simp), hdirectory]
  · rcases hempty q hq with hnone | ⟨hleft, -⟩
    · simp [IsLink, hnone]
    · simp [IsLink, hleft]
  · exact Denotes.unique ht.sound (hstrips.denotes hpath hq) hdenotes

/-- A directory that is new is prepared. -/
theorem Prepared.of_created (ht : t.IsProper) (hmissing : t.exists? dir = false)
    (hbuilds : Builds t dir t') (hfound : t'.lookup dir = .ok (here, .directory))
    (hnew : t.entryAt here = none) : Prepared t dir here t' := by
  obtain ⟨hdenotes, hdirectory, -⟩ := denotes_of_lookup hbuilds.proper.sound hfound
  refine ⟨hbuilds.proper, hdirectory, fun q hq => ?_,
    fun q hpath _ => Denotes.unique hbuilds.proper.sound hpath hdenotes,
    .created hmissing hnew hfound hbuilds⟩
  -- below a new directory there are at most others that are new
  have hold : t.entryAt q = none := ht.sound.none_below (by simp [hnew]) hq
  rcases hbuilds.gained hold with hnone | hmade
  · simp [IsLink, hnone]
  · simp [IsLink, hmade]

/-- Preparing the export directory is confined, and leaves it prepared when it succeeds. -/
theorem prepare_ensures (ht : t.IsProper) {workspace : Path} (habs : dir.isAbsolute = true)
    (hup : .up ∉ dir.route) :
    Ensures (fun s => s.tree = t) (prepare workspace dir)
      (fun _ s => ∃ here, Prepared t dir here s.tree)
      (fun e s => Confined t dir s.tree ∧ (e.IsRefusal → s.tree = t)) := by
  rintro s rfl
  have hdir : dir ≠ [] := Path.ne_nil_of_isAbsolute habs
  cases hrun : outcome (prepare workspace dir) s with
  | mk result s' =>
    cases preparing_of_outcome ht hdir hrun with
    | refused _ => exact ⟨.refl _ _, fun _ => rfl⟩
    | blocked _ _ =>
      exact ⟨.refl _ _, fun hrefusal => absurd hrefusal (not_isRefusal_access _ _ _)⟩
    | made _ hmissing hbuilds hother hmade =>
      cases result with
      | error e => exact ⟨.of_builds hmissing hbuilds, fun he => absurd he (hother e rfl)⟩
      | ok _ =>
        obtain ⟨here, hfound, hcase⟩ := makeDirectories_ok ht habs hup (hmade rfl)
        have hnew : s.tree.entryAt here = none := by
          rcases hcase with hsame | hnew
          · -- a tree that has not changed still has nothing under the path
            rw [hsame] at hfound
            rw [exists?, hfound] at hmissing
            cases hmissing
          · exact hnew
        exact ⟨here, .of_created ht hmissing hbuilds hfound hnew⟩
    | emptied _ hlookup hstrips hother hempty =>
      cases result with
      | error e =>
        have hconfined : Confined s.tree dir s'.tree :=
          .of_below hlookup fun q hq => hstrips.entryAt_eq hq
        exact ⟨hconfined, fun hrefusal => absurd hrefusal (hother e rfl)⟩
      | ok _ => exact ⟨_, .of_emptied ht hlookup hstrips (hempty rfl)⟩

/-- Filling a prepared export directory is confined. -/
theorem Prepared.confined (ht : t.IsProper) (h : Prepared t dir here t₁)
    (hfills : Fills t₁ here t') : Confined t dir t' := by
  cases h.history with
  | emptied hlookup hstrips =>
    refine .of_below hlookup fun q hq => ?_
    rw [hfills.entryAt_eq hq, hstrips.entryAt_eq hq]
  | created hmissing hnew hlookup hbuilds =>
    have hlookup' :=
      lookup_mono_directory h.proper.sound hfills.proper.sound hfills.start hfills.carries hlookup
    refine ⟨fun q hsome _ => ?_, fun q hnone hsome _ => ⟨hmissing, ?_⟩⟩
    · -- nothing stood where the new directory is, so nothing old is below it
      have hq : ¬ isBelow here q = true := fun hq =>
        hsome (ht.sound.none_below (by simp [hnew]) hq)
      obtain ⟨e, he⟩ := Option.ne_none_iff_exists'.1 hsome
      rw [hfills.entryAt_eq hq, hbuilds.kept he, he]
    · by_cases hq : isBelow here q = true
      · exact .inl ⟨here, hlookup', hq⟩
      · rw [hfills.entryAt_eq hq] at hsome
        rcases hbuilds.entry q with hsame | ⟨-, -, above, habove, hfound⟩
        · rw [hsame] at hsome
          exact absurd hnone hsome
        · exact .inr ⟨above, habove, lookup_mono_directory h.proper.sound hfills.proper.sound
            hfills.start hfills.carries hfound⟩

/-! ## The package assembled -/

/-- A path denotes no directory but one, if any, and no links are below that. -/
structure Sole (t : FileTree) (dir : Path) (here : Place) : Prop where
  proper : t.IsProper
  linkless : ∀ q, isBelow here q = true → ¬ IsLink (t.entryAt q)
  only : ∀ q, t.Denotes dir q → t.entryAt q = some .directory → q = here

/-- The path of a prepared directory denotes no other. -/
theorem Prepared.sole (h : Prepared t dir here t₁) : Sole t₁ dir here :=
  ⟨h.proper, h.linkless, h.only⟩

/-- A file is written under a name only in a directory. -/
theorem exists_of_write_name (ht : t.IsProper) (habs : dir.isAbsolute = true) {n : Text}
    (hn : IsNormal n) {content : Bytes} (hwrite : t.write (dir.join n) content = .ok t') :
    ∃ here, t.Denotes dir here ∧ t.entryAt here = some .directory := by
  have hdir : dir ≠ [] := Path.ne_nil_of_isAbsolute habs
  obtain ⟨q, hq, -⟩ := write_spec ht.sound (Path.isInto_name habs hn).absolute hwrite
  obtain ⟨here, hhere, hdirectory, -⟩ := hq.of_join hdir (Path.isAbsolute_of_isNormal hn)
    (by simp [Path.route_name hn])
  exact ⟨here, hhere, hdirectory⟩

/-- The first file of the package is written only if the path leads to its directory, which is
settled then. -/
theorem Sole.writeFirst (h : Sole t dir here) (habs : dir.isAbsolute = true) {n : Text}
    (hn : IsNormal n) (text : Text) :
    Ensures (fun s => s.tree = t) (writeFile (dir.join n) text)
      (fun _ s => Settled t dir here ∧ Fills t here s.tree)
      (fun e s => Fills t here s.tree ∧ ¬ e.IsRefusal) := by
  rintro s rfl
  have hinto := Path.isInto_name habs hn
  cases hwrite : s.tree.write (dir.join n) (Utf8.encode text) with
  | error fault =>
    rw [writeFile, outcome_alter, outcome_change, hwrite]
    exact ⟨.refl h.proper here, not_isRefusal_access _ _ _⟩
  | ok t' =>
    -- the file has been written, so its path led through the directory
    obtain ⟨place, hplace, hdirectory⟩ := exists_of_write_name h.proper habs hn hwrite
    have hsame := h.only place hplace hdirectory
    rw [hsame] at hplace hdirectory
    have hsettled : Settled s.tree dir here := ⟨h.proper, habs, hplace, hdirectory, h.linkless⟩
    rw [writeFile, outcome_alter, outcome_change, hwrite]
    exact ⟨hsettled, hsettled.write_fills hinto (by simp) hwrite⟩

variable {workspace : Path} {c : Config}

/-- Manifest, readme and license fill such a directory, and leave it settled. -/
theorem Sole.writeFront (h : Sole t₁ (workspace.join c.exportDir) here)
    (habs : workspace.isAbsolute = true) :
    Ensures (fun s => s.tree = t₁) (writeFront workspace (workspace.join c.exportDir) c)
      (fun _ s => Settled t₁ (workspace.join c.exportDir) here ∧ Fills t₁ here s.tree)
      (fun e s => Fills t₁ here s.tree ∧ ¬ e.IsRefusal) := by
  have hdirAbs := Path.isAbsolute_join_of_isAbsolute habs c.exportDir
  have hload := @ensures_inspect _ (fun t' => t' = t₁)
    (fun e t' => Fills t₁ here t' ∧ ¬ e.IsRefusal)
    (ProjectManifest.load · (workspace.join "package.json"))
    fun t' e ht' he => ⟨ht' ▸ .refl h.proper here, not_isRefusal_of_load he⟩
  refine Ensures.bind (hload.weaken (fun _ hs => hs) (fun _ _ hs => hs.1) fun _ _ hs => hs)
    fun project => ?_
  refine (h.writeFirst hdirAbs (by decide) _).bind fun _ => ?_
  -- from the first file on the directory is settled, and copying only fills it
  have hcopy : ∀ {name : Text}, IsNormal name → ∀ source : Path,
      Ensures (fun s : Session => Settled t₁ (workspace.join c.exportDir) here
          ∧ Fills t₁ here s.tree)
        (copyFile source ((workspace.join c.exportDir).join name))
        (fun _ s => Settled t₁ (workspace.join c.exportDir) here ∧ Fills t₁ here s.tree)
        (fun e s => Fills t₁ here s.tree ∧ ¬ e.IsRefusal) :=
    fun hname source => Ensures.of_fact fun hsettled =>
      (withstands_fills hsettled).copyFront hdirAbs hname trivial source
  exact (hcopy (by decide) _).bind fun _ => hcopy (by decide) _

/-- What follows on the front of the package fills the export directory. -/
theorem fillsOnly_packInterfaces (habs : workspace.isAbsolute = true)
    (h : Settled t₁ (workspace.join c.exportDir) here) (turns : List Nat) :
    FillsOnly t₁ here (packInterfaces workspace c turns) :=
  (withstands_fills h).packInterfaces habs trivial trivial turns

/-- Assembling the package is confined to the export directory. -/
theorem assemble_confined (ht : t.IsProper) (habs : workspace.isAbsolute = true)
    (hup : .up ∉ (workspace.join c.exportDir).route) (turns : List Nat) :
    Ensures (fun s => s.tree = t) (assemble workspace c turns)
      (fun _ s => ∃ here t₁, Prepared t (workspace.join c.exportDir) here t₁ ∧
        Fills t₁ here s.tree)
      (fun e s => Confined t (workspace.join c.exportDir) s.tree ∧
        (e.IsRefusal → s.tree = t)) := by
  have hdirAbs := Path.isAbsolute_join_of_isAbsolute habs c.exportDir
  refine (prepare_ensures ht hdirAbs hup).bind fun _ => ?_
  rintro s ⟨here, hprep⟩
  have hrest := (hprep.sole.writeFront habs).bind fun _ => Ensures.of_fact fun hsettled =>
    fillsOnly_packInterfaces habs hsettled turns
  exact hrest.weaken (fun _ h => h) (fun _ _ h => ⟨here, s.tree, hprep, h.2⟩)
    (fun _ _ h => ⟨hprep.confined ht h.1, fun hrefusal => absurd hrefusal h.2⟩) s rfl

/-! ## The whole export -/

/-- What follows on a package that is assembled and leaves the tree alone keeps it confined. -/
theorem confined_of_assemble (ht : t.IsProper) (habs : workspace.isAbsolute = true)
    (hup : .up ∉ (workspace.join c.exportDir).route) (turns : List Nat) {α : Type}
    {next : List ExportedInterface → Action α}
    (hnext : ∀ interfaces t₁ here, FillsOnly t₁ here (next interfaces)) :
    Ensures (fun s => s.tree = t) (assemble workspace c turns >>= next)
      (fun _ s => Confined t (workspace.join c.exportDir) s.tree)
      (fun e s => Confined t (workspace.join c.exportDir) s.tree ∧
        (e.IsRefusal → s.tree = t)) := by
  refine (assemble_confined ht habs hup turns).bind fun interfaces => ?_
  rintro s ⟨here, t₁, hprep, hfills⟩
  exact (hnext interfaces t₁ here).weaken (fun _ h => h) (fun _ _ h => hprep.confined ht h)
    (fun _ _ h => ⟨hprep.confined ht h.1, fun hrefusal => absurd hrefusal h.2⟩) s hfills

/-- A configuration that cannot be resolved ends an export before anything is touched. -/
theorem run_of_resolve_error (programs : Programs) (current : Path) (a : Arguments)
    (turns : List Nat) {e : Failure} {s : Session}
    (h : Config.resolve s.tree (current.join a.workspace) a = .error e) :
    outcome (run programs current a turns) s = (.error e, s) := by
  rw [run, outcome_bind, outcome_inspect, h]

/-- What an export reports of the interfaces it has packaged. -/
def summaryOf (a : Arguments) (c : Config) (interfaces : List ExportedInterface) : Summary where
  exportDir := c.exportDir
  interfaces := interfaces
  generatedTargets := if a.skipCodegen then [] else c.targets
  dependenciesInstalled := !a.skipInstall

/-- With a configuration an export assembles the package and leaves the rest to programs. -/
theorem run_of_resolve_ok (programs : Programs) (current : Path) (a : Arguments)
    (turns : List Nat) {s : Session}
    (h : Config.resolve s.tree (current.join a.workspace) a = .ok c) :
    outcome (run programs current a turns) s
      = outcome (assemble (current.join a.workspace) c turns >>= fun interfaces =>
          finish programs (current.join a.workspace) a c >>= fun _ =>
            pure (summaryOf a c interfaces)) s := by
  rw [run, outcome_bind, outcome_inspect, h]
  rfl

/-- An export touches nothing outside of its export directory, whatever the turns and whatever comes
of it. All files, directories and links that are not inside the directory that the export path
denotes are still there and unchanged, and what is new elsewhere are directories on the way of that
path, where nothing was under it before. When the configuration cannot be resolved or the export
directory is refused, the tree does not change at all. -/
theorem run_confined (programs : Programs) {current : Path} {a : Arguments} {turns : List Nat}
    (ht : t.IsProper) (hcurrent : current.isAbsolute = true)
    (hcurrentUp : .up ∉ current.components) (hworkspaceUp : .up ∉ a.workspace.components)
    {result : Except Failure Summary} {s : Session}
    (hrun : outcome (run programs current a turns) { tree := t } = (result, s)) :
    (∀ e, Config.resolve t (current.join a.workspace) a = .error e →
      result = .error e ∧ s.tree = t) ∧
    ∀ c, Config.resolve t (current.join a.workspace) a = .ok c → .up ∉ c.exportDir.components →
      Confined t ((current.join a.workspace).join c.exportDir) s.tree ∧
        ∀ e, result = .error e → e.IsRefusal → s.tree = t := by
  refine ⟨fun e he => ?_, fun c hc hexportUp => ?_⟩
  · rw [run_of_resolve_error programs current a turns (s := { tree := t }) he] at hrun
    cases hrun
    exact ⟨rfl, rfl⟩
  · have habs := Path.isAbsolute_join_of_isAbsolute hcurrent a.workspace
    have hup := up_notMem_route_join
      (up_notMem_route_join (up_notMem_route hcurrentUp) (up_notMem_route hworkspaceUp))
      (up_notMem_route hexportUp)
    rw [run_of_resolve_ok programs current a turns (s := { tree := t }) hc] at hrun
    have hensures := confined_of_assemble ht habs hup turns fun interfaces t₁ here =>
      (keeps_finish programs (current.join a.workspace) a c).bind fun _ =>
        Keeps.pure (summaryOf a c interfaces)
    cases result with
    | ok summary => exact ⟨hensures.ok rfl hrun, nofun⟩
    | error e =>
      obtain ⟨hconfined, hrefusal⟩ := hensures.error rfl hrun
      refine ⟨hconfined, fun e' he' => ?_⟩
      cases he'
      exact hrefusal

/-- The configuration of a project without a configuration file. -/
theorem resolve_of_no_file {a : Arguments} (ha : a.config = none)
    (hfile : t.exists? (workspace.join Config.fileName) = false) :
    Config.resolve t workspace a = .ok (Config.standard.overlay a.layer) := by
  rw [Config.resolve, Config.fileLayer, ha]
  dsimp only
  rw [hfile]
  rfl

/-- No programs at all. -/
def noPrograms : Programs where
  find? _ := none
  execute _ i := .error (.notStarted i.program [])

/-- An export of the plain project with nothing but defaults is confined to `npm`. -/
theorem run_confined_plainProject :
    ∃ c, Config.resolve plainProject (Path.join ['/', 'w', 's'] ['.']) { workspace := ['.'] }
        = .ok c ∧
      Confined plainProject ((Path.join ['/', 'w', 's'] ['.']).join c.exportDir)
        (outcome (run noPrograms ['/', 'w', 's'] { workspace := ['.'] })
          { tree := plainProject }).2.tree := by
  have hresolved : (match Config.resolve plainProject (Path.join ['/', 'w', 's'] ['.'])
      { workspace := ['.'] } with
    | .ok c => decide (.up ∉ c.exportDir.components)
    | .error _ => false) = true := by decide +kernel
  have hconfined := (@run_confined plainProject noPrograms ['/', 'w', 's'] { workspace := ['.'] } []
    plainProject_isProper rfl (by decide) (by decide) _ _ rfl).2
  cases hc : Config.resolve plainProject (Path.join ['/', 'w', 's'] ['.'])
      { workspace := ['.'] } with
  | error e =>
    rw [hc] at hresolved
    cases hresolved
  | ok c =>
    rw [hc] at hresolved
    exact ⟨c, rfl, (hconfined c hc (of_decide_eq_true hresolved)).1⟩

end InterfacePackage.Export
