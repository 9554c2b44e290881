import InterfacePackage.Proofs.Export.Guard
import InterfacePackage.Proofs.FileTree.Agree
import InterfacePackage.Proofs.FileTree.Endpoint

/-!
# Whether the export directory is left empty

An export directory is meant to be empty once it is prepared. Its path is resolved again after the
tree has changed, so two things can go wrong where the path climbs: a directory that it only passes
is made or removed with the others, and a directory that was there all along is taken for one that
is missing. Main statements: `isStraight_of_list_eq_nil` and `prepare_vacates`.
-/

namespace InterfacePackage

/-- No path above a path leads into the directory that the path itself leads to. -/
def Path.IsStraight (p : Path) : Prop :=
  ∀ above ∈ p.ancestors, ¬ FileTree.isBelow p.endpoint above.endpoint = true

instance (p : Path) : Decidable p.IsStraight := inferInstanceAs (Decidable (∀ _ ∈ _, _))

/-- A path that does not climb is straight. -/
theorem Path.isStraight_of_up_notMem {p : Path} (habs : p.isAbsolute = true)
    (h : .up ∉ p.components) : p.IsStraight := by
  intro above habove
  exact FileTree.not_isBelow_above (endpoint_prefix_of_up_notMem habs h habove) (by simp)

namespace FileTree

variable {t : FileTree} {p : Path} {here : Place}

/-- A directory is listed under a path that denotes it. -/
theorem list_eq_ok_iff {ns : List Name} :
    t.list p = .ok ns ↔ ∃ here, t.lookup p = .ok (here, .directory) ∧ t.names here = ns := by
  unfold list
  cases hlookup : t.lookup p with
  | error fault => simp [bind, Except.bind]
  | ok found =>
    obtain ⟨there, e⟩ := found
    cases e <;> simp [bind, Except.bind]

/-- The path of an empty directory is straight, since it could not pass what is not there. -/
theorem isStraight_of_list_eq_nil (ht : t.IsSound) (hlinks : t.IsLinkless)
    (habs : p.isAbsolute = true) (h : t.list p = .ok []) : p.IsStraight := by
  obtain ⟨here, hlookup, hnil⟩ := list_eq_ok_iff.1 h
  have hdenotes := denotesDirectory_of_lookup ht hlookup
  obtain rfl := (denotes_of_lookup ht hlookup).1.eq_endpoint hlinks habs
  intro above habove hbelow
  have henter := (denotesDirectory_iff hlinks habs).1 hdenotes above habove
  have hnone := (names_eq_nil_iff ht).1 hnil _ hbelow
  rw [henter.directory] at hnone
  cases hnone

/-- A straight path still denotes its directory when something below that is gone. -/
theorem Strips.denotesDirectory {t' : FileTree} (h : Strips t p.endpoint t')
    (hlinks : t.IsLinkless) (habs : p.isAbsolute = true) (hstraight : p.IsStraight)
    (hp : t.DenotesDirectory p) : t'.DenotesDirectory p := by
  refine (denotesDirectory_iff (h.isLinkless hlinks) habs).2 fun above habove => ?_
  have henter := (denotesDirectory_iff hlinks habs).1 hp above habove
  refine ⟨?_, henter.short⟩
  rw [h.entryAt_eq (hstraight above habove), henter.directory]

end FileTree

namespace Export

open FileTree

variable {workspace exportDir : Path} {s s' : Session}

/-- An export directory that was there is left empty exactly if its path is straight. -/
theorem list_of_emptied (ht : s.tree.IsProper) (hlinks : s.tree.IsLinkless)
    (hdir : exportDir.isAbsolute = true) {here : Place}
    (hlookup : s.tree.lookup exportDir = .ok (here, .directory))
    (hstrips : Strips s.tree here s'.tree)
    (hempty : ∀ q, isBelow here q = true → s'.tree.entryAt q = none ∨
      s'.tree.entryAt q = some .directory ∧ ¬ s'.tree.Denotes exportDir here) :
    s'.tree.list exportDir = .ok [] ↔ exportDir.IsStraight := by
  obtain ⟨hdenotes, -, hvet⟩ := denotes_of_lookup ht.sound hlookup
  obtain rfl := hdenotes.eq_endpoint hlinks hdir
  have hlinks' := hstrips.isLinkless hlinks
  refine ⟨isStraight_of_list_eq_nil hstrips.proper.sound hlinks' hdir, fun hstraight => ?_⟩
  have hkept := hstrips.denotesDirectory hlinks hdir hstraight
    (denotesDirectory_of_lookup ht.sound hlookup)
  obtain ⟨hthere, henter⟩ := hkept.denotes hlinks' hdir
  refine list_eq_ok_iff.2 ⟨exportDir.endpoint,
    lookup_of_denotes hstrips.proper.sound hvet hthere henter.directory,
    (names_eq_nil_iff hstrips.proper.sound).2 fun q hq => ?_⟩
  rcases hempty q hq with hnone | ⟨-, hlost⟩
  · exact hnone
  · exact absurd hthere hlost

/-- An export directory that was made is empty exactly if its path is straight and nothing stood
where it leads. -/
theorem list_of_made (ht : s.tree.IsProper) (hlinks : s.tree.IsLinkless)
    (hdir : exportDir.isAbsolute = true) (hbuilds : Builds s.tree exportDir s'.tree) {here : Place}
    (hlookup : s'.tree.lookup exportDir = .ok (here, .directory)) :
    s'.tree.list exportDir = .ok [] ↔
      exportDir.IsStraight ∧ s.tree.names exportDir.endpoint = [] := by
  have hsound' := hbuilds.proper.sound
  have hlinks' := hbuilds.isLinkless hlinks
  obtain rfl := (denotes_of_lookup hsound' hlookup).1.eq_endpoint hlinks' hdir
  constructor
  · intro hlist
    refine ⟨isStraight_of_list_eq_nil hsound' hlinks' hdir hlist, ?_⟩
    obtain ⟨here, hfound, hnil⟩ := list_eq_ok_iff.1 hlist
    rw [hlookup] at hfound
    cases hfound
    -- what stood there would still stand there
    refine (names_eq_nil_iff ht.sound).2 fun q hq => ?_
    cases hentry : s.tree.entryAt q with
    | none => rfl
    | some e =>
      have hnone := (names_eq_nil_iff hsound').1 hnil q hq
      rw [hbuilds.kept hentry] at hnone
      cases hnone
  · rintro ⟨hstraight, hnil⟩
    refine list_eq_ok_iff.2 ⟨_, hlookup, (names_eq_nil_iff hsound').2 fun q hq => ?_⟩
    rcases hbuilds.entry q with hsame | ⟨-, -, above, habove, hnew⟩
    · rw [hsame]
      exact (names_eq_nil_iff ht.sound).1 hnil q hq
    · -- a new directory there would be one that the path passes
      have habsAbove := (Path.pieces_of_mem_ancestors hdir habove).1
      obtain rfl := (denotes_of_lookup hsound' hnew).1.eq_endpoint hlinks' habsAbove
      exact absurd hq (hstraight above habove)

/-- What stands where a path leads that climbs from directories only is found under that path, if it
may be walked at all. -/
theorem exists_or_names_eq_nil {t : FileTree} (ht : t.IsSound) (hlinks : t.IsLinkless)
    (hdir : exportDir.isAbsolute = true) (hclimbs : t.ClimbsFromDirectories exportDir)
    (hvet : vet exportDir = .ok ()) (hshort : ∀ n ∈ exportDir.endpoint, n.length ≤ nameLimit) :
    t.exists? exportDir = true ∨ t.names exportDir.endpoint = [] := by
  cases hnames : t.names exportDir.endpoint with
  | nil => exact .inr rfl
  | cons n ns =>
    have hdirectory : t.entryAt exportDir.endpoint = some .directory :=
      ht _ n (mem_names_iff.1 (by simp [hnames]))
    have hp := (denotesDirectory_iff_of_climbs ht hlinks hdir hclimbs).2 ⟨hdirectory, hshort⟩
    exact .inl (exists?_of_lookup
      (lookup_of_denotes ht hvet (hp.denotes hlinks hdir).1 hdirectory))

/-- In a tree without links an export directory that was prepared is there and empty exactly if its
path is straight, and it was found before or nothing stood in it. So it is if the path is straight
and climbs from directories only, and whenever the path does not climb. -/
theorem prepare_vacates (ht : s.tree.IsProper) (hlinks : s.tree.IsLinkless)
    (hdir : exportDir.isAbsolute = true)
    (hok : outcome (prepare workspace exportDir) s = (.ok (), s')) :
    (s'.tree.list exportDir = .ok [] ↔ exportDir.IsStraight ∧
        (s.tree.exists? exportDir = true ∨ s.tree.names exportDir.endpoint = [])) ∧
      (exportDir.IsStraight → s.tree.ClimbsFromDirectories exportDir →
        s'.tree.list exportDir = .ok []) ∧
      (.up ∉ exportDir.components → s'.tree.list exportDir = .ok []) := by
  have hne := Path.ne_nil_of_isAbsolute hdir
  obtain ⟨hiff, hfound⟩ : (s'.tree.list exportDir = .ok [] ↔ exportDir.IsStraight ∧
        (s.tree.exists? exportDir = true ∨ s.tree.names exportDir.endpoint = [])) ∧
      (s.tree.ClimbsFromDirectories exportDir →
        s.tree.exists? exportDir = true ∨ s.tree.names exportDir.endpoint = []) := by
    cases preparing_of_outcome ht hne hok with
    | made _ hmissing hbuilds _ hmade =>
      obtain ⟨here, hlookup⟩ := lookup_of_makeChain ht hne (hmade rfl)
      have hvet := (denotes_of_lookup hbuilds.proper.sound hlookup).2.2
      have hmadeDir := denotesDirectory_of_lookup hbuilds.proper.sound hlookup
      have henter := (hmadeDir.denotes (hbuilds.isLinkless hlinks) hdir).2
      refine ⟨?_, fun hclimbs =>
        exists_or_names_eq_nil ht.sound hlinks hdir hclimbs hvet henter.short⟩
      rw [list_of_made ht hlinks hdir hbuilds hlookup, hmissing]
      simp
    | emptied _ hlookup hstrips _ hempty =>
      rw [list_of_emptied ht hlinks hdir hlookup hstrips (hempty rfl), exists?_of_lookup hlookup]
      simp
  refine ⟨hiff, fun hstraight hclimbs => hiff.2 ⟨hstraight, hfound hclimbs⟩, fun hup => ?_⟩
  exact hiff.2 ⟨Path.isStraight_of_up_notMem hdir hup,
    hfound (climbsFromDirectories_of_up_notMem hup)⟩

/-! ## A detour -/

/-- The project, with a directory in it that holds a file of an earlier build. -/
def builtProject : FileTree :=
  (plainProject.put [Utf8.encode ['w', 's'], Utf8.encode ['d', 'i', 's', 't']] .directory).put
    [Utf8.encode ['w', 's'], Utf8.encode ['d', 'i', 's', 't'], Utf8.encode ['o', 'l', 'd']]
    (.file [])

/-- Prepared under its own path the directory is left empty. -/
theorem prepare_vacates_builtProject :
    builtProject.IsProper ∧ builtProject.IsLinkless ∧
      (outcome (prepare ['/', 'w', 's'] ['/', 'w', 's', '/', 'd', 'i', 's', 't'])
        { tree := builtProject }).1 = .ok () ∧
      (outcome (prepare ['/', 'w', 's'] ['/', 'w', 's', '/', 'd', 'i', 's', 't'])
        { tree := builtProject }).2.tree.list ['/', 'w', 's', '/', 'd', 'i', 's', 't']
          = .ok [] := by
  have hproper : builtProject.IsProper := by decide +kernel
  have hlinks : builtProject.IsLinkless := by decide +kernel
  have hvacates := @prepare_vacates ['/', 'w', 's'] ['/', 'w', 's', '/', 'd', 'i', 's', 't']
    { tree := builtProject } _ hproper hlinks rfl rfl
  exact ⟨hproper, hlinks, rfl, hvacates.2.2 (by decide)⟩

/-- Prepared under a path that passes a missing directory it keeps what it holds, and preparing
succeeds. -/
theorem prepare_keeps_builtProject :
    builtProject.IsProper ∧ builtProject.IsLinkless ∧
      (outcome (prepare ['/', 'w', 's']
          ['/', 'w', 's', '/', 'n', 'p', 'm', '/', '.', '.', '/', 'd', 'i', 's', 't'])
        { tree := builtProject }).1 = .ok () ∧
      (outcome (prepare ['/', 'w', 's']
          ['/', 'w', 's', '/', 'n', 'p', 'm', '/', '.', '.', '/', 'd', 'i', 's', 't'])
        { tree := builtProject }).2.tree.list
          ['/', 'w', 's', '/', 'n', 'p', 'm', '/', '.', '.', '/', 'd', 'i', 's', 't']
        = .ok [Utf8.encode ['o', 'l', 'd']] :=
  ⟨by decide +kernel, by decide +kernel, rfl, rfl⟩

end Export

end InterfacePackage
