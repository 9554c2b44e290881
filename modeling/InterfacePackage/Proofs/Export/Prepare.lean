import InterfacePackage.Export.Prepare
import InterfacePackage.Proofs.Export.Action
import InterfacePackage.Proofs.FileTree.Build
import InterfacePackage.Proofs.FileTree.Strip

/-!
# The export directory prepared

Three cases: a directory that by its spelling encloses the workspace is refused, one that is there
is emptied, and one that is missing is made. Main statements: `prepare_of_directory` (only what is
below the directory goes, and after success nothing is left in it as far as its path still leads
there), `prepare_of_missing`, and `preparing_of_outcome` (there is nothing else that preparing can
do).
-/

namespace InterfacePackage.Export

open FileTree

variable {workspace exportDir : Path} {t : FileTree} {s s' : Session} {here : Place}

/-! ## One entry -/

/-- One entry removed takes away nothing that is not below the directory. -/
theorem removeEntry_strips (ht : s.tree.IsProper) (hdir : exportDir ≠ []) {name : Name}
    (hname : IsName name) {isDirectory : Bool} {result : Except Failure Unit}
    (hhere : ∀ place, s.tree.Denotes exportDir place →
      s.tree.entryAt place = some .directory → place = here)
    (hrun : outcome (removeEntry exportDir name isDirectory) s = (result, s')) :
    Strips s.tree here s'.tree ∧ (result = .ok () → Cleared s'.tree exportDir here name) ∧
      ∀ e, result = .error e → ¬ e.IsRefusal := by
  have hother : ∀ (fault : Fault) (path : Path),
      ¬ (Failure.access .remove path fault).IsRefusal := by
    rintro fault path ⟨x, w, h⟩
    cases h
  unfold removeEntry at hrun
  -- a name that is no text gives no path, and nothing is removed
  cases htext : Utf8.decode name with
  | none =>
    rw [htext] at hrun
    cases hrun
    refine ⟨.refl ht here, nofun, ?_⟩
    rintro e h ⟨x, w, rfl⟩
    cases h
  | some text =>
    have hn := hname.decode htext
    have hencode := Utf8.encode_of_decode htext
    rw [htext] at hrun
    cases isDirectory with
    -- removing a directory may fail half-way, removing a file does nothing if it fails
    | true =>
      change outcome (alter (removeDirectory (exportDir.join text)) _) s = _ at hrun
      rw [outcome_alter] at hrun
      cases hremove : outcome (removeDirectory (exportDir.join text)) s.tree with
      | mk removed t' =>
        obtain ⟨hstrips, hcleared⟩ := removeDirectory_strips ht hdir hn hhere hremove
        rw [hencode] at hcleared
        rw [hremove] at hrun
        cases removed with
        | ok _ =>
          cases hrun
          exact ⟨hstrips, fun _ => hcleared rfl, nofun⟩
        | error fault =>
          cases hrun
          refine ⟨hstrips, nofun, ?_⟩
          rintro e h
          cases h
          exact hother _ _
    | false =>
      change outcome (alter (change (·.removeFile (exportDir.join text))) _) s = _ at hrun
      rw [outcome_alter, outcome_change] at hrun
      cases hremove : s.tree.removeFile (exportDir.join text) with
      | ok t' =>
        obtain ⟨hstrips, hcleared⟩ := removeFile_strips ht hdir hn hhere hremove
        rw [hencode] at hcleared
        rw [hremove] at hrun
        cases hrun
        exact ⟨hstrips, fun _ => hcleared, nofun⟩
      | error fault =>
        rw [hremove] at hrun
        cases hrun
        refine ⟨.refl ht here, nofun, ?_⟩
        rintro e h
        cases h
        exact hother _ _

/-! ## All entries -/

/-- Entries removed one after another take away nothing that is not below the directory, and after
success all of them are gone. -/
theorem removeEntries_ensures (ht : t.IsProper) (hdir : exportDir ≠ [])
    (hlookup : t.lookup exportDir = .ok (here, .directory)) {entries : List (Name × Bool)}
    (hnames : ∀ x ∈ entries, IsName x.1) :
    Ensures (fun s => Strips t here s.tree)
      (entries.forM fun x => removeEntry exportDir x.1 x.2)
      (fun _ s => Strips t here s.tree ∧ ∀ x ∈ entries, Cleared s.tree exportDir here x.1)
      (fun e s => Strips t here s.tree ∧ ¬ e.IsRefusal) := by
  obtain ⟨hdenotes, hdirectory, -⟩ := denotes_of_lookup ht.sound hlookup
  have hforM := @Ensures.forM _ _ _ (fun x : Name × Bool => removeEntry exportDir x.1 x.2)
    (fun done _ (s : Session) => Strips t here s.tree ∧
      ∀ x ∈ done, Cleared s.tree exportDir here x.1)
    (fun e s => Strips t here s.tree ∧ ¬ e.IsRefusal) entries ?_
  · refine hforM.weaken (fun s hs => ⟨hs, fun x hx => ?_⟩) (fun _ _ h => h) (fun _ _ h => h)
    cases hx
  · rintro done x left hentries s ⟨hstrips, hdone⟩
    -- what the path denotes after removals, it denoted before them
    have hhere : ∀ place, s.tree.Denotes exportDir place →
        s.tree.entryAt place = some .directory → place = here := fun place hpath hplace =>
      Denotes.unique ht.sound (hstrips.denotes hpath hplace) hdenotes
    have hname := hnames x (by simp [hentries])
    cases hrun : outcome (removeEntry exportDir x.1 x.2) s with
    | mk result s' =>
      obtain ⟨hless, hcleared, hother⟩ :=
        removeEntry_strips hstrips.proper hdir hname hhere hrun
      have hall := hstrips.trans hless
      cases result with
      | error e => exact ⟨hall, hother e rfl⟩
      | ok _ =>
        refine ⟨hall, fun y hy => ?_⟩
        rcases List.mem_append.1 hy with hy | hy
        · refine (hdone y hy).mono hless ?_
          rw [hall.entryAt_eq (by simp), hdirectory]
        · rw [List.mem_singleton.1 hy]
          exact hcleared rfl

/-! ## The three cases -/

/-- An export directory that by its spelling encloses the workspace is refused. -/
theorem prepare_of_encloses (h : encloses exportDir workspace = true) (s : Session) :
    outcome (prepare workspace exportDir) s
      = (.error (.unsafeExportDir exportDir workspace), s) := by
  unfold prepare
  rw [if_pos h]
  rfl

/-- One that is not refused is emptied if it is there, and made if it is missing. -/
theorem outcome_prepare (h : encloses exportDir workspace = false) (s : Session) :
    outcome (prepare workspace exportDir) s
      = if s.tree.exists? exportDir then
          match entriesOf s.tree exportDir with
          | .ok entries => outcome (entries.forM fun x => removeEntry exportDir x.1 x.2) s
          | .error fault => (.error (.access .read exportDir fault), s)
        else outcome (alter (makeDirectories exportDir) (.access .create exportDir)) s := by
  unfold prepare
  rw [if_neg (by simp [h])]
  dsimp only
  rw [outcome_bind, outcome_get]
  dsimp only
  split
  · rw [outcome_bind, outcome_inspect]
    cases entriesOf s.tree exportDir <;> rfl
  · rfl

/-- The entries of a directory are listed under their names. -/
theorem entriesOf_directory {dir : Path} (hlookup : t.lookup dir = .ok (here, .directory)) :
    entriesOf t dir
      = .ok ((t.names here).map fun n => (n, t.entryAt (here ++ [n]) = some .directory)) := by
  unfold entriesOf
  rw [hlookup]
  rfl

/-- What is no directory has no entries. -/
theorem entriesOf_other {dir : Path} {q : Place} {e : Entry} (hlookup : t.lookup dir = .ok (q, e))
    (he : e ≠ .directory) : entriesOf t dir = .error .notDirectory := by
  unfold entriesOf
  rw [hlookup]
  cases e with
  | directory => exact absurd rfl he
  | file content => rfl
  | link target => rfl

/-- Something that is there and is no directory is left alone. -/
theorem prepare_of_other (h : encloses exportDir workspace = false) {q : Place} {e : Entry}
    (hlookup : s.tree.lookup exportDir = .ok (q, e)) (he : e ≠ .directory) :
    outcome (prepare workspace exportDir) s
      = (.error (.access .read exportDir .notDirectory), s) := by
  rw [outcome_prepare h, if_pos (exists?_of_lookup hlookup), entriesOf_other hlookup he]

/-- An export directory that is missing is built along its path, and nothing else changes. -/
theorem prepare_of_missing (h : encloses exportDir workspace = false) (ht : s.tree.IsProper)
    (hmissing : s.tree.exists? exportDir = false) {result : Except Failure Unit}
    (hrun : outcome (prepare workspace exportDir) s = (result, s')) :
    Builds s.tree exportDir s'.tree ∧ (∀ e, result = .error e → ¬ e.IsRefusal) ∧
      (result = .ok () → outcome (makeDirectories exportDir) s.tree = (.ok (), s'.tree)) := by
  rw [outcome_prepare h, if_neg (by simp [hmissing]), outcome_alter] at hrun
  have hbuilds := makeDirectories_builds ht exportDir
  cases hmake : outcome (makeDirectories exportDir) s.tree with
  | mk made t' =>
    rw [hmake] at hrun hbuilds
    cases hrun
    refine ⟨hbuilds, ?_, ?_⟩
    · rintro e he ⟨x, w, rfl⟩
      cases made <;> cases he
    · intro hok
      cases made with
      | ok _ => rfl
      | error fault => cases hok

/-- An export directory that is there loses what is below it, and nothing else changes. After
success nothing is left in it but empty directories, and these only if its path leads there no
longer. -/
theorem prepare_of_directory (h : encloses exportDir workspace = false) (ht : s.tree.IsProper)
    (hdir : exportDir ≠ []) (hlookup : s.tree.lookup exportDir = .ok (here, .directory))
    {result : Except Failure Unit}
    (hrun : outcome (prepare workspace exportDir) s = (result, s')) :
    Strips s.tree here s'.tree ∧ (∀ e, result = .error e → ¬ e.IsRefusal) ∧
      (result = .ok () → ∀ q, isBelow here q = true → s'.tree.entryAt q = none ∨
        s'.tree.entryAt q = some .directory ∧ ¬ s'.tree.Denotes exportDir here) := by
  rw [outcome_prepare h, if_pos (exists?_of_lookup hlookup), entriesOf_directory hlookup] at hrun
  dsimp only at hrun
  have hnames : ∀ x ∈ (s.tree.names here).map fun n =>
      (n, decide (s.tree.entryAt (here ++ [n]) = some .directory)), IsName x.1 := by
    intro x hx
    obtain ⟨n, hn, rfl⟩ := List.mem_map.1 hx
    exact ht.named here n (mem_names_iff.1 hn)
  have hensures := removeEntries_ensures ht hdir hlookup hnames
  cases result with
  | error e =>
    obtain ⟨hstrips, hother⟩ := hensures.error (.refl ht here) hrun
    refine ⟨hstrips, ?_, nofun⟩
    intro e' he'
    cases he'
    exact hother
  | ok _ =>
    obtain ⟨hstrips, hcleared⟩ := hensures.ok (.refl ht here) hrun
    refine ⟨hstrips, nofun, fun _ q hq => ?_⟩
    obtain ⟨n, rest, rfl⟩ := isBelow_iff.1 hq
    by_cases hn : s.tree.entryAt (here ++ [n]) = none
    · -- nothing had this name, so nothing was below it either
      exact .inl (hstrips.none_of_none (ht.sound.none_beyond hn rest))
    · have hgone := hcleared (n, _) (List.mem_map.2 ⟨n, mem_names_iff.2 hn, rfl⟩)
      rw [List.append_cons]
      by_cases hrest : rest = []
      · rw [hrest, List.append_nil]
        exact hgone.self
      · exact .inl (hgone.below _ (isBelow_append _ hrest))

/-! ## All cases -/

/-- What preparing an export directory comes to. -/
inductive Preparing (workspace exportDir : Path) (s : Session) :
    Except Failure Unit → Session → Prop where
  /-- The directory encloses the workspace. -/
  | refused (hguard : encloses exportDir workspace = true) :
      Preparing workspace exportDir s (.error (.unsafeExportDir exportDir workspace)) s
  /-- Something else is there. -/
  | blocked {q : Place} {e : Entry} (hlookup : s.tree.lookup exportDir = .ok (q, e))
      (he : e ≠ .directory) :
      Preparing workspace exportDir s (.error (.access .read exportDir .notDirectory)) s
  /-- The directory is missing, and it is made or that fails. -/
  | made {result : Except Failure Unit} {s' : Session}
      (hguard : encloses exportDir workspace = false) (hmissing : s.tree.exists? exportDir = false)
      (hbuilds : Builds s.tree exportDir s'.tree) (hother : ∀ e, result = .error e → ¬ e.IsRefusal)
      (hmade : result = .ok () → outcome (makeDirectories exportDir) s.tree = (.ok (), s'.tree)) :
      Preparing workspace exportDir s result s'
  /-- The directory is there, and it is emptied or that fails. -/
  | emptied {result : Except Failure Unit} {s' : Session} {here : Place}
      (hguard : encloses exportDir workspace = false)
      (hlookup : s.tree.lookup exportDir = .ok (here, .directory))
      (hstrips : Strips s.tree here s'.tree) (hother : ∀ e, result = .error e → ¬ e.IsRefusal)
      (hempty : result = .ok () → ∀ q, isBelow here q = true → s'.tree.entryAt q = none ∨
        s'.tree.entryAt q = some .directory ∧ ¬ s'.tree.Denotes exportDir here) :
      Preparing workspace exportDir s result s'

/-- Preparing does one of these. -/
theorem preparing_of_outcome (ht : s.tree.IsProper) (hdir : exportDir ≠ [])
    {result : Except Failure Unit}
    (hrun : outcome (prepare workspace exportDir) s = (result, s')) :
    Preparing workspace exportDir s result s' := by
  cases hguard : encloses exportDir workspace with
  | true =>
    rw [prepare_of_encloses hguard] at hrun
    cases hrun
    exact .refused hguard
  | false =>
    cases hlookup : s.tree.lookup exportDir with
    | error fault =>
      have hmissing := exists?_of_lookup_error hlookup
      obtain ⟨hbuilds, hother, hmade⟩ := prepare_of_missing hguard ht hmissing hrun
      exact .made hguard hmissing hbuilds hother hmade
    | ok found =>
      obtain ⟨here, e⟩ := found
      by_cases he : e = .directory
      · subst he
        obtain ⟨hstrips, hother, hempty⟩ := prepare_of_directory hguard ht hdir hlookup hrun
        exact .emptied hguard hlookup hstrips hother hempty
      · rw [prepare_of_other hguard hlookup he] at hrun
        cases hrun
        exact .blocked hlookup he

/-- The tree stays proper. -/
theorem Preparing.proper {result : Except Failure Unit}
    (h : Preparing workspace exportDir s result s') (ht : s.tree.IsProper) : s'.tree.IsProper := by
  cases h with
  | refused _ => exact ht
  | blocked _ _ => exact ht
  | made _ _ hbuilds _ _ => exact hbuilds.proper
  | emptied _ _ hstrips _ _ => exact hstrips.proper

end InterfacePackage.Export
