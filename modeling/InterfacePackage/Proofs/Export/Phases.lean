import InterfacePackage.Proofs.Export.Repeat

/-!
# What a failed export leaves

An export goes through phases, and one that fails leaves what the phases before the failing one have
put into the export directory. Main statement: `run_leaves`.
-/

namespace InterfacePackage.Export

open FileTree

variable {t t' : FileTree} {s s' : Session} {workspace dir current source : Path} {a : Arguments}
  {c : Config} {here q : Place} {e : Failure} {programs : Programs} {k : Nat}
  {files : List (Name × Bytes)} {n : Name} {content : Bytes} {turns : List Nat}

/-! ## Phases -/

/-- The phases of an export on the prepared directory. -/
inductive Phase where
  /-- The project's manifest is read. -/
  | reading
  /-- The package's manifest is written. -/
  | writing
  /-- The readme is copied. -/
  | readme
  /-- The license is copied. -/
  | license
  /-- The remappings are read. -/
  | remappings
  /-- The interfaces are looked for. -/
  | finding
  /-- The interfaces are exported. -/
  | exporting
  /-- A package manager is looked for and called. -/
  | calling
deriving DecidableEq, Repr

/-- A phase fails in an export that goes on from the session `s₀`, in which the directory has been
prepared: the phases before it succeed, and the export ends with its failure. -/
inductive FailsIn (programs : Programs) (workspace : Path) (a : Arguments) (c : Config)
    (turns : List Nat) (s₀ : Session) : Phase → Failure → Session → Prop where
  | reading {e : Failure}
      (hload : ProjectManifest.load s₀.tree (workspace.join "package.json") = .error e) :
      FailsIn programs workspace a c turns s₀ .reading e s₀
  | writing {project : ProjectManifest} {e : Failure} {s : Session}
      (hload : ProjectManifest.load s₀.tree (workspace.join "package.json") = .ok project)
      (hwrite : outcome (writeFile ((workspace.join c.exportDir).join "package.json")
        (PackageManifest.assemble project c).text) s₀ = (.error e, s)) :
      FailsIn programs workspace a c turns s₀ .writing e s
  | readme {project : ProjectManifest} {e : Failure} {s₁ s : Session}
      (hload : ProjectManifest.load s₀.tree (workspace.join "package.json") = .ok project)
      (hwrite : outcome (writeFile ((workspace.join c.exportDir).join "package.json")
        (PackageManifest.assemble project c).text) s₀ = (.ok (), s₁))
      (hreadme : outcome (copyFile (workspace.join c.readme)
        ((workspace.join c.exportDir).join "README.md")) s₁ = (.error e, s)) :
      FailsIn programs workspace a c turns s₀ .readme e s
  | license {project : ProjectManifest} {e : Failure} {s₁ s₂ s : Session}
      (hload : ProjectManifest.load s₀.tree (workspace.join "package.json") = .ok project)
      (hwrite : outcome (writeFile ((workspace.join c.exportDir).join "package.json")
        (PackageManifest.assemble project c).text) s₀ = (.ok (), s₁))
      (hreadme : outcome (copyFile (workspace.join c.readme)
        ((workspace.join c.exportDir).join "README.md")) s₁ = (.ok (), s₂))
      (hlicense : outcome (copyFile (workspace.join c.license)
        ((workspace.join c.exportDir).join "LICENSE")) s₂ = (.error e, s)) :
      FailsIn programs workspace a c turns s₀ .license e s
  | remappings {e : Failure} {s₁ s : Session}
      (hfront : outcome (writeFront workspace (workspace.join c.exportDir) c) s₀ = (.ok (), s₁))
      (hload : outcome (loadRemappings (workspace.join c.remappings)) s₁ = (.error e, s)) :
      FailsIn programs workspace a c turns s₀ .remappings e s
  | finding {e : Failure} {table : Import.Table} {s₁ s : Session}
      (hfront : outcome (writeFront workspace (workspace.join c.exportDir) c) s₀ = (.ok (), s₁))
      (hload : outcome (loadRemappings (workspace.join c.remappings)) s₁ = (.ok table, s))
      (hfind : findInterfaces s.tree workspace c.interfacesDir c.interfacesGlob = .error e) :
      FailsIn programs workspace a c turns s₀ .finding e s
  | exporting {e : Failure} {table : Import.Table} {found : List Path} {s₁ s₂ s : Session}
      (hfront : outcome (writeFront workspace (workspace.join c.exportDir) c) s₀ = (.ok (), s₁))
      (hload : outcome (loadRemappings (workspace.join c.remappings)) s₁ = (.ok table, s₂))
      (hfind : findInterfaces s₂.tree workspace c.interfacesDir c.interfacesGlob = .ok found)
      (hexport : outcome (sideBySide turns (found.map (interfaceScript workspace c table))) s₂
        = (.error e, s)) :
      FailsIn programs workspace a c turns s₀ .exporting e s
  | calling {e : Failure} {interfaces : List ExportedInterface} {s₁ s : Session}
      (hpack : outcome (pack workspace c turns) s₀ = (.ok interfaces, s₁))
      (hfinish : outcome (finish programs workspace a c) s₁ = (.error e, s)) :
      FailsIn programs workspace a c turns s₀ .calling e s

/-- The front of a package fails in one of its phases. -/
theorem exists_failsIn_of_writeFront {s₀ : Session}
    (hrun : outcome (writeFront workspace (workspace.join c.exportDir) c) s₀ = (.error e, s)) :
    ∃ phase, FailsIn programs workspace a c turns s₀ phase e s := by
  rcases outcome_bind_eq_error.1 hrun with hload | ⟨project, s₁, hload, hrest⟩
  · obtain ⟨hload, rfl⟩ := outcome_inspect_eq_error.1 hload
    exact ⟨.reading, .reading hload⟩
  obtain ⟨hload, rfl⟩ := outcome_inspect_eq_ok.1 hload
  rcases outcome_bind_eq_error.1 hrest with hwrite | ⟨_, s₂, hwrite, hrest⟩
  · exact ⟨.writing, .writing hload hwrite⟩
  rcases outcome_bind_eq_error.1 hrest with hreadme | ⟨_, s₃, hreadme, hlicense⟩
  · exact ⟨.readme, .readme hload hwrite hreadme⟩
  · exact ⟨.license, .license hload hwrite hreadme hlicense⟩

/-- Putting the package together fails in one of its phases. -/
theorem exists_failsIn_of_pack {s₀ : Session}
    (hrun : outcome (pack workspace c turns) s₀ = (.error e, s)) :
    ∃ phase, FailsIn programs workspace a c turns s₀ phase e s := by
  rcases outcome_bind_eq_error.1 hrun with hfront | ⟨_, s₁, hfront, hrest⟩
  · exact exists_failsIn_of_writeFront hfront
  rcases outcome_bind_eq_error.1 hrest with hload | ⟨table, s₂, hload, hrest⟩
  · exact ⟨.remappings, .remappings hfront hload⟩
  rcases outcome_bind_eq_error.1 hrest with hfind | ⟨found, s₃, hfind, hrest'⟩
  · obtain ⟨hfind, rfl⟩ := outcome_inspect_eq_error.1 hfind
    exact ⟨.finding, .finding hfront hload hfind⟩
  obtain ⟨hfind, rfl⟩ := outcome_inspect_eq_ok.1 hfind
  rcases outcome_bind_eq_error.1 hrest' with hexport | ⟨interfaces, s₄, -, hreport⟩
  · exact ⟨.exporting, .exporting hfront hload hfind hexport⟩
  · -- what is left to do cannot fail
    cases hreport

/-- An export that fails on a prepared directory fails in one of the phases. -/
theorem exists_failsIn_of_run {s₀ : Session} {summary : List ExportedInterface → Summary}
    (hrun : outcome (pack workspace c turns >>= fun interfaces =>
      finish programs workspace a c >>= fun _ => pure (summary interfaces)) s₀ = (.error e, s)) :
    ∃ phase, FailsIn programs workspace a c turns s₀ phase e s := by
  rcases outcome_bind_eq_error.1 hrun with hpack | ⟨interfaces, s₁, hpack, hrest⟩
  · exact exists_failsIn_of_pack hpack
  rcases outcome_bind_eq_error.1 hrest with hfinish | ⟨_, s₂, -, hreturn⟩
  · exact ⟨.calling, .calling hpack hfinish⟩
  · cases hreturn

/-- An export ends as the phase that fails does. -/
theorem FailsIn.outcome_eq {s₀ : Session} {phase : Phase}
    {summary : List ExportedInterface → Summary}
    (h : FailsIn programs workspace a c turns s₀ phase e s) :
    outcome (pack workspace c turns >>= fun interfaces =>
      finish programs workspace a c >>= fun _ => pure (summary interfaces)) s₀ = (.error e, s) := by
  have hinspect : ∀ {α : Type} {f : FileTree → Except Failure α} {s₁ : Session}
      {result : Except Failure α}, f s₁.tree = result → outcome (inspect f) s₁ = (result, s₁) := by
    intro α f s₁ result hf
    rw [outcome_inspect, hf]
  cases h with
  | calling hpack hfinish =>
    rw [outcome_bind_of_ok hpack]
    exact outcome_bind_of_error hfinish
  | remappings hfront hload =>
    refine outcome_bind_of_error ?_
    rw [pack, outcome_bind_of_ok hfront, packInterfaces]
    exact outcome_bind_of_error hload
  | finding hfront hload hfind =>
    refine outcome_bind_of_error ?_
    rw [pack, outcome_bind_of_ok hfront, packInterfaces, outcome_bind_of_ok hload]
    exact outcome_bind_of_error (hinspect hfind)
  | exporting hfront hload hfind hexport =>
    refine outcome_bind_of_error ?_
    rw [pack, outcome_bind_of_ok hfront, packInterfaces, outcome_bind_of_ok hload, fillPackage,
      outcome_bind_of_ok (hinspect hfind)]
    exact outcome_bind_of_error hexport
  | reading hload =>
    refine outcome_bind_of_error (outcome_bind_of_error ?_)
    exact outcome_bind_of_error (hinspect hload)
  | writing hload hwrite =>
    refine outcome_bind_of_error (outcome_bind_of_error ?_)
    rw [writeFront, outcome_bind_of_ok (hinspect hload)]
    exact outcome_bind_of_error hwrite
  | readme hload hwrite hreadme =>
    refine outcome_bind_of_error (outcome_bind_of_error ?_)
    rw [writeFront, outcome_bind_of_ok (hinspect hload), outcome_bind_of_ok hwrite]
    exact outcome_bind_of_error hreadme
  | license hload hwrite hreadme hlicense =>
    refine outcome_bind_of_error (outcome_bind_of_error ?_)
    rw [writeFront, outcome_bind_of_ok (hinspect hload), outcome_bind_of_ok hwrite,
      outcome_bind_of_ok hreadme]
    exact hlicense

/-! ## The front as far as it has come -/

/-- Below a place stand these files and nothing else, right in it and under these names. -/
def Holds (t : FileTree) (here : Place) (files : List (Name × Bytes)) : Prop :=
  ∀ q e, isBelow here q = true →
    (t.entryAt q = some e ↔ ∃ x ∈ files, q = here ++ [x.1] ∧ e = .file x.2)

/-- The first files of a package's front, their contents taken from the project. -/
inductive IsFront (t : FileTree) (workspace : Path) (c : Config) :
    Nat → List (Name × Bytes) → Prop where
  | empty : IsFront t workspace c 0 []
  | manifest {project : ProjectManifest}
      (hload : ProjectManifest.load t (workspace.join "package.json") = .ok project) :
      IsFront t workspace c 1
        [(Utf8.encode "package.json", Utf8.encode (PackageManifest.assemble project c).text)]
  | readme {files : List (Name × Bytes)} {content : Bytes} (h : IsFront t workspace c 1 files)
      (hread : t.read (workspace.join c.readme) = .ok content) :
      IsFront t workspace c 2 (files ++ [(Utf8.encode "README.md", content)])
  | license {files : List (Name × Bytes)} {content : Bytes} (h : IsFront t workspace c 2 files)
      (hread : t.read (workspace.join c.license) = .ok content) :
      IsFront t workspace c 3 (files ++ [(Utf8.encode "LICENSE", content)])

/-- Its names are the first ones of a front. -/
theorem IsFront.names (h : IsFront t workspace c k files) :
    files.map (·.1) = frontNames.take k := by
  induction h with
  | empty => rfl
  | manifest _ => rfl
  | readme _ _ ih => rw [List.map_append, ih]; rfl
  | license _ _ ih => rw [List.map_append, ih]; rfl

/-- It stays what it is when the directory grows. -/
theorem IsFront.grows (h : IsFront t workspace c k files) (hgrows : Grows t here t')
    (ht : t.IsProper) (hlinks : t.IsLinkless) : IsFront t' workspace c k files := by
  induction h with
  | empty => exact .empty
  | manifest hload => exact .manifest (load_of_grows hgrows ht hlinks hload)
  | readme _ hread ih => exact .readme ih (hgrows.read ht hlinks hread)
  | license _ hread ih => exact .license ih (hgrows.read ht hlinks hread)

/-- A name that none of the files has is not there. -/
theorem Holds.entryAt_eq_none (h : Holds t here files) (hn : n ∉ files.map (·.1)) :
    t.entryAt (here ++ [n]) = none := by
  refine Classical.byContradiction fun hsome => hn ?_
  obtain ⟨e, he⟩ := Option.ne_none_iff_exists'.1 hsome
  obtain ⟨x, hx, hplace, -⟩ := (h _ e (isBelow_append here (List.cons_ne_nil n []))).1 he
  have hname : n = x.1 := (List.cons.inj (List.append_cancel_left hplace)).1
  exact List.mem_map.2 ⟨x, hx, hname.symm⟩

/-- One more file. -/
theorem Holds.append (h : Holds t here files) (hnone : t.entryAt (here ++ [n]) = none)
    (hself : t'.entryAt (here ++ [n]) = some (.file content))
    (hsame : ∀ p, p ≠ here ++ [n] → t'.entryAt p = t.entryAt p) :
    Holds t' here (files ++ [(n, content)]) := by
  intro q e hq
  by_cases hplace : q = here ++ [n]
  · subst hplace
    rw [hself]
    constructor
    · intro he
      cases he
      exact ⟨(n, content), by simp, rfl, rfl⟩
    · rintro ⟨x, hx, hx', rfl⟩
      rcases List.mem_append.1 hx with hold | hnew
      · -- no earlier file has the new name
        rw [(h _ _ hq).2 ⟨x, hold, hx', rfl⟩] at hnone
        cases hnone
      · rw [List.mem_singleton.1 hnew]
  · rw [hsame q hplace, h q e hq]
    constructor
    · rintro ⟨x, hx, hrest⟩
      exact ⟨x, List.mem_append_left _ hx, hrest⟩
    · rintro ⟨x, hx, hx', rfl⟩
      rcases List.mem_append.1 hx with hold | hnew
      · exact ⟨x, hold, hx', rfl⟩
      · rw [List.mem_singleton.1 hnew] at hx'
        exact absurd hx' hplace

/-- The first files of the front are all that is in the export directory. -/
structure HasBegun (t : FileTree) (workspace : Path) (c : Config) (here : Place) (k : Nat) :
    Prop where
  stands : Stands t (workspace.join c.exportDir) here
  front : ∃ files, IsFront t workspace c k files ∧ Holds t here files

/-- A prepared directory stands and is empty. -/
theorem hasBegun_of_prepare (ht : s.tree.IsProper) (hlinks : s.tree.IsLinkless)
    (habs : workspace.isAbsolute = true) (hup : .up ∉ (workspace.join c.exportDir).route)
    (hrun : outcome (prepare workspace (workspace.join c.exportDir)) s = (.ok (), s')) :
    ∃ here, HasBegun s'.tree workspace c here 0 := by
  have hdirAbs := Path.isAbsolute_join_of_isAbsolute habs c.exportDir
  obtain ⟨here, hprep⟩ := (prepare_ensures ht hdirAbs hup).ok rfl hrun
  have hlookup : s'.tree.lookup (workspace.join c.exportDir) = .ok (here, .directory) := by
    cases hprep.history with
    | emptied hlookup hstrips =>
      have hstands : Stands s.tree (workspace.join c.exportDir) here :=
        ⟨ht, hlinks, hdirAbs, hup, hlookup⟩
      exact (hstands.strips hstrips).lookup
    | created _ _ hlookup _ => exact hlookup
  have hdenotes := (denotes_of_lookup hprep.proper.sound hlookup).1
  refine ⟨here, ⟨hprep.proper, hprep.isLinkless hlinks, hdirAbs, hup, hlookup⟩, [], .empty, ?_⟩
  intro q e hq
  rw [prepare_empties ht hlinks hdirAbs hup hrun hprep hdenotes hq]
  simp

/-! ## One file after another -/

section

variable {name text : Text} (h : Settled s.tree dir here) (hname : IsNormal name)

/-- What cannot be written leaves nothing behind. -/
theorem tree_of_writeFile_error {path : Path}
    (hrun : outcome (writeFile path text) s = (.error e, s')) : s'.tree = s.tree := by
  rw [writeFile, outcome_alter, outcome_change] at hrun
  cases hwrite : s.tree.write path (Utf8.encode text) with
  | ok t =>
    rw [hwrite] at hrun
    cases hrun
  | error fault =>
    rw [hwrite] at hrun
    cases hrun
    rfl

include h hname

/-- Above a name in a settled directory no directory is missing. -/
theorem tree_of_makeParent : (outcome (makeParent (dir.join name)) s).2.tree = s.tree := by
  unfold makeParent
  cases hparent : (dir.join name).parent with
  | none => rfl
  | some above =>
    have hpaves := h.paves_parent (Path.isInto_name h.absolute hname) (by simp) hparent
    rw [outcome_alter]
    refine ext_entryAt (makeDirectories_root h.proper above) (fun p => ?_) hpaves.fills.start
    rcases hpaves.entry p with hsame | ⟨⟨habove, hbelow⟩, -, -⟩
    · exact hsame
    · exact absurd hbelow (not_isBelow_snoc habove)

/-- What cannot be copied leaves nothing behind. -/
theorem tree_of_copyFile_error
    (hrun : outcome (copyFile source (dir.join name)) s = (.error e, s')) : s'.tree = s.tree := by
  have hparent := tree_of_makeParent h hname
  rw [copyFile] at hrun
  rcases outcome_bind_eq_error.1 hrun with hmake | ⟨_, s₁, hmake, hcopy⟩
  · rwa [hmake] at hparent
  · rw [hmake] at hparent
    rw [copyContents, outcome_alter, outcome_change] at hcopy
    cases hchange : s₁.tree.copy source (dir.join name) with
    | ok t =>
      rw [hchange] at hcopy
      cases hcopy
    | error fault =>
      rw [hchange] at hcopy
      cases hcopy
      exact hparent

end

namespace HasBegun

/-- The manifest is the first file. -/
theorem write (h : HasBegun s.tree workspace c here 0) {project : ProjectManifest}
    (hload : ProjectManifest.load s.tree (workspace.join "package.json") = .ok project)
    (hrun : outcome (writeFile ((workspace.join c.exportDir).join "package.json")
      (PackageManifest.assemble project c).text) s = (.ok (), s')) :
    HasBegun s'.tree workspace c here 1 := by
  obtain ⟨files, hfront, hholds⟩ := h.front
  cases hfront
  have hsettled := h.stands.settled
  have hinto := Path.isInto_name (n := "package.json") hsettled.absolute (by decide)
  have hlays := writeFile_lays hsettled hinto (by simp) (.refl hsettled.proper here _) hrun
  have hnone := hholds.entryAt_eq_none (n := Utf8.encode "package.json") (by simp)
  have hgrows := hlays.grows hnone
  refine ⟨h.stands.fills hgrows.fills, _,
    .manifest (load_of_grows hgrows hsettled.proper h.stands.linkless hload), ?_⟩
  exact hholds.append hnone hlays.self fun p hp => entryAt_of_lays_name hlays hp

/-- A copy under a new name is one more file. -/
theorem copy (h : HasBegun s.tree workspace c here k) {name : Text} (hname : IsNormal name)
    (hfresh : Utf8.encode name ∉ frontNames.take k)
    (hnext : ∀ {files content}, IsFront s'.tree workspace c k files →
      s'.tree.read source = .ok content →
      IsFront s'.tree workspace c (k + 1) (files ++ [(Utf8.encode name, content)]))
    (hrun : outcome (copyFile source ((workspace.join c.exportDir).join name)) s = (.ok (), s')) :
    HasBegun s'.tree workspace c here (k + 1) := by
  obtain ⟨files, hfront, hholds⟩ := h.front
  rw [← hfront.names] at hfresh
  have hnone := hholds.entryAt_eq_none hfresh
  obtain ⟨hgrows, hsame, content, hread, hself⟩ :=
    copyFile_name_ok h.stands.settled hname hnone hrun
  have hfront' := hfront.grows hgrows h.stands.proper h.stands.linkless
  exact ⟨h.stands.fills hgrows.fills, _, hnext hfront' hread, hholds.append hnone hself hsame⟩

/-- The whole front are its three files. -/
theorem writeFront (h : HasBegun s.tree workspace c here 0)
    (hrun : outcome (Export.writeFront workspace (workspace.join c.exportDir) c) s = (.ok (), s')) :
    HasBegun s'.tree workspace c here 3 := by
  unfold Export.writeFront at hrun
  obtain ⟨project, s₁, hload, hrest⟩ := outcome_bind_eq_ok.1 hrun
  obtain ⟨hload, rfl⟩ := outcome_inspect_eq_ok.1 hload
  obtain ⟨_, s₂, hmanifest, hcopies⟩ := outcome_bind_eq_ok.1 hrest
  obtain ⟨_, s₃, hreadme, hlicense⟩ := outcome_bind_eq_ok.1 hcopies
  have hwritten := h.write hload hmanifest
  have hcopied := hwritten.copy (by decide) (by decide) .readme hreadme
  exact hcopied.copy (by decide) (by decide) .license hlicense

end HasBegun

/-! ## What is left of a failed export -/

/-- A command line with all calls skipped. -/
def withoutCalls (a : Arguments) : Arguments :=
  { a with skipCodegen := true, skipInstall := true }

/-- How many files of the front are there before a phase. -/
def Phase.filesBefore : Phase → Nat
  | reading | writing => 0
  | readme => 1
  | license => 2
  | remappings | finding | exporting | calling => 3

/-- What an export that fails in a phase leaves in the directory at `here`. Up to the search for the
interfaces these are the files of the front written before the phase, and nothing else. From there
on the front is complete, and further files lie in `contracts` and `abi` only. When all interfaces
are exported the tree is the one that a run leaves which skips all calls and succeeds, and the
package is complete. -/
def Leaves (programs : Programs) (current : Path) (a : Arguments) (turns : List Nat) (t : FileTree)
    (c : Config) (here : Place) (s : Session) : Phase → Prop
  | .calling => ∃ summary s' interfaces,
      outcome (run programs current (withoutCalls a) turns) { tree := t } = (.ok summary, s') ∧
      s'.tree = s.tree ∧
      Mirrors s.tree (current.join a.workspace) c here interfaces summary.interfaces
  | .exporting => ∃ files, IsFront s.tree (current.join a.workspace) c 3 files ∧
      ∀ n names e, n ∉ [Utf8.encode "contracts", Utf8.encode "abi"] →
        (s.tree.entryAt (here ++ n :: names) = some e ↔
          names = [] ∧ ∃ content, (n, content) ∈ files ∧ e = .file content)
  | phase => ∃ files, IsFront s.tree (current.join a.workspace) c phase.filesBefore files ∧
      Holds s.tree here files

variable {s₀ : Session} {phase : Phase}

/-- Before the search for the interfaces has succeeded nothing but the front is there. -/
theorem hasBegun_of_failsIn (h : HasBegun s₀.tree workspace c here 0)
    (hfails : FailsIn programs workspace a c turns s₀ phase e s)
    (hexporting : phase ≠ .exporting) (hcalling : phase ≠ .calling) :
    HasBegun s.tree workspace c here phase.filesBefore := by
  cases hfails with
  | reading _ => exact h
  | writing _ hwrite => rwa [tree_of_writeFile_error hwrite]
  | readme hload hwrite hreadme =>
    have hbegun := h.write hload hwrite
    rwa [tree_of_copyFile_error hbegun.stands.settled (by decide) hreadme]
  | license hload hwrite hreadme hlicense =>
    have hbegun := (h.write hload hwrite).copy (by decide) (by decide) .readme hreadme
    rwa [tree_of_copyFile_error hbegun.stands.settled (by decide) hlicense]
  | remappings hfront hload =>
    have htree := (@keeps_loadRemappings (fun t' => t' = _) _).error rfl hload
    rw [htree.1]
    exact h.writeFront hfront
  | finding hfront hload _ =>
    have htree := (@keeps_loadRemappings (fun t' => t' = _) _).ok rfl hload
    rw [htree]
    exact h.writeFront hfront
  | exporting _ _ _ _ => exact absurd rfl hexporting
  | calling _ _ => exact absurd rfl hcalling

/-- While interfaces are exported the front stays, and nothing else appears outside of `contracts`
and `abi`. -/
theorem leaves_of_exporting (h : HasBegun s₀.tree workspace c here 0)
    (habs : workspace.isAbsolute = true)
    (hfails : FailsIn programs workspace a c turns s₀ .exporting e s) :
    ∃ files, IsFront s.tree workspace c 3 files ∧
      ∀ n names e, n ∉ [Utf8.encode "contracts", Utf8.encode "abi"] →
        (s.tree.entryAt (here ++ n :: names) = some e ↔
          names = [] ∧ ∃ content, (n, content) ∈ files ∧ e = .file content) := by
  cases hfails with
  | @exporting _ table found s₁ s₂ _ hfront hload hfind hexport =>
    have hbegun := h.writeFront hfront
    obtain ⟨files, hfiles, hholds⟩ := hbegun.front
    have hrun : outcome (packInterfaces workspace c turns) s₁ = (.error e, s) := by
      refine outcome_bind_eq_error.2 (.inr ⟨table, s₂, hload, ?_⟩)
      refine outcome_bind_eq_error.2 (.inr ⟨found, s₂, outcome_inspect_eq_ok.2 ⟨hfind, rfl⟩, ?_⟩)
      exact outcome_bind_eq_error.2 (.inl hexport)
    have hkeeps := (withstands_within hbegun.stands.settled
      (· ∈ [Utf8.encode "contracts", Utf8.encode "abi"])).packInterfaces (c := c) habs (by simp)
        (by simp) turns
    have hwithin := (hkeeps.error (.refl hbegun.stands.proper here _) hrun).1
    have hgrows : Grows s₁.tree here s.tree := by
      refine ⟨hwithin.fills, fun q e he => ?_⟩
      by_cases hq : isBelow here q = true
      · -- all that is there is of the front, whose names are others
        obtain ⟨x, hx, rfl, -⟩ := (hholds q e hq).1 he
        have hname : x.1 ∈ frontNames := List.mem_of_mem_take
          (hfiles.names ▸ List.mem_map.2 ⟨x, hx, rfl⟩)
        have hother : ∀ m ∈ frontNames,
            m ∉ [Utf8.encode "contracts", Utf8.encode "abi"] := by decide
        rw [hwithin.same x.1 [] (hother _ hname), he]
      · rw [hwithin.fills.entryAt_eq hq, he]
    refine ⟨files, hfiles.grows hgrows hbegun.stands.proper hbegun.stands.linkless,
      fun n names e hn => ?_⟩
    rw [hwithin.same n names hn, hholds _ e (isBelow_append here (List.cons_ne_nil n names))]
    constructor
    · rintro ⟨x, hx, hplace, rfl⟩
      obtain ⟨rfl, rfl⟩ := List.cons.inj (List.append_cancel_left hplace)
      exact ⟨rfl, x.2, hx, rfl⟩
    · rintro ⟨rfl, content, hmem, rfl⟩
      exact ⟨(n, content), hmem, rfl, rfl⟩

/-- An export without calls succeeds once the package is complete. -/
theorem run_withoutCalls (programs : Programs) {interfaces : List ExportedInterface} {s₁ : Session}
    (hresolve : Config.resolve t (current.join a.workspace) a = .ok c)
    (hprepare : outcome (prepare (current.join a.workspace)
      ((current.join a.workspace).join c.exportDir)) { tree := t } = (.ok (), s₀))
    (hpack : outcome (pack (current.join a.workspace) c turns) s₀ = (.ok interfaces, s₁)) :
    outcome (run programs current (withoutCalls a) turns) { tree := t }
      = (.ok (summaryOf (withoutCalls a) c interfaces), s₁) := by
  have hrun := run_of_prepare_ok programs current (withoutCalls a) turns (s := { tree := t })
    hresolve hprepare
  have hpack' : outcome (pack (current.join (withoutCalls a).workspace) c turns) s₀
      = (.ok interfaces, s₁) := hpack
  rw [hrun, outcome_bind, hpack']
  rfl

/-- A failed export leaves in its directory what the phases before the failing one have put there.
The phase that fails is one of eight, and what is left in each case is said by `Leaves`: nothing at
all when the project's manifest cannot be read; the manifest when the readme cannot be copied;
manifest and readme when the license cannot be copied; the three of them when remappings or
interfaces cannot be read or found; and the complete package when no package manager is found or one
of its calls fails. -/
theorem run_leaves (programs : Programs) (ht : t.IsProper) (hlinks : t.IsLinkless)
    (hcurrent : current.isAbsolute = true) (hcurrentUp : .up ∉ current.components)
    (hworkspaceUp : .up ∉ a.workspace.components)
    (hresolve : Config.resolve t (current.join a.workspace) a = .ok c)
    (hexportUp : .up ∉ c.exportDir.components)
    (hprepare : outcome (prepare (current.join a.workspace)
      ((current.join a.workspace).join c.exportDir)) { tree := t } = (.ok (), s₀))
    (hrun : outcome (run programs current a turns) { tree := t } = (.error e, s)) :
    ∃ here, s.tree.lookup ((current.join a.workspace).join c.exportDir) = .ok (here, .directory) ∧
      (∃ phase, FailsIn programs (current.join a.workspace) a c turns s₀ phase e s) ∧
      ∀ phase, FailsIn programs (current.join a.workspace) a c turns s₀ phase e s →
        Leaves programs current a turns t c here s phase := by
  have habs := Path.isAbsolute_join_of_isAbsolute hcurrent a.workspace
  have hup := up_notMem_route_join
    (up_notMem_route_join (up_notMem_route hcurrentUp) (up_notMem_route hworkspaceUp))
    (up_notMem_route hexportUp)
  obtain ⟨here, hbegun⟩ := hasBegun_of_prepare (s := { tree := t }) ht hlinks habs hup hprepare
  rw [run_of_prepare_ok programs current a turns (s := { tree := t }) hresolve hprepare] at hrun
  have hsettled := hbegun.stands.settled
  have hkeeps := (keeps_pack hsettled habs turns).bind fun interfaces =>
    (keeps_finish programs (current.join a.workspace) a c).bind fun _ =>
      Keeps.pure (summaryOf a c interfaces)
  have hstands := hbegun.stands.fills (hkeeps.error (.refl hsettled.proper here _) hrun).1.fills
  refine ⟨here, hstands.lookup, exists_failsIn_of_run hrun, fun phase hfails => ?_⟩
  cases hphase : phase with
  | exporting => exact leaves_of_exporting hbegun habs (hphase ▸ hfails)
  | calling =>
    subst hphase
    cases hfails with
    | @calling _ interfaces s₁ _ hpack hfinish =>
      have hexport := run_withoutCalls programs hresolve hprepare hpack
      have htree := ((@keeps_finish (fun t' => t' = s₁.tree) programs _ a c).error rfl hfinish).1
      have hassemble : outcome (assemble (current.join a.workspace) c turns) { tree := t }
          = (.ok interfaces, s₁) := by
        rw [assemble, outcome_bind_of_ok hprepare, hpack]
      obtain ⟨table, found, here', root, e', interfaces', -, -, -, hmirrors⟩ :=
        assemble_mirrors (s := { tree := t }) ht hlinks habs hup hassemble
      have hlookup := hstands.lookup
      rw [htree] at hlookup
      obtain rfl : here' = here := by
        cases hmirrors.directory.symm.trans hlookup
        rfl
      refine ⟨_, s₁, interfaces', hexport, htree.symm, ?_⟩
      rw [htree]
      exact hmirrors
  | _ =>
    have hfront := hasBegun_of_failsIn hbegun hfails (by simp [hphase]) (by simp [hphase])
    rw [hphase] at hfront
    exact hfront.front

/-- The compiled project without its license. -/
def unlicensedProject : FileTree :=
  compiledProject.erase (["ws", "LICENSE"].map fun n : String => Utf8.encode n.toList)

/-- Its configuration. -/
def plainConfig : Config := Config.standard.overlay exportOnly.layer

/-- Its export fails on the license and leaves the manifest and the readme. -/
theorem run_leaves_unlicensedProject :
    ∃ s here files,
      outcome (run noPrograms ['/', 'w', 's'] exportOnly) { tree := unlicensedProject }
        = (.error (.access .copy ((Path.join ['/', 'w', 's'] ['.']).join plainConfig.license)
            .notFound), s) ∧
      s.tree.lookup ((Path.join ['/', 'w', 's'] ['.']).join plainConfig.exportDir)
        = .ok (here, .directory) ∧
      IsFront s.tree (Path.join ['/', 'w', 's'] ['.']) plainConfig 2 files ∧
      Holds s.tree here files := by
  have hresolve : Config.resolve unlicensedProject (Path.join ['/', 'w', 's'] ['.']) exportOnly
      = .ok plainConfig := resolve_of_no_file rfl (by decide +kernel)
  -- the phases up to the one that fails
  have hphases : (match outcome (prepare (Path.join ['/', 'w', 's'] ['.'])
        ((Path.join ['/', 'w', 's'] ['.']).join plainConfig.exportDir))
        { tree := unlicensedProject } with
    | (.error _, _) => false
    | (.ok _, s₀) =>
      match ProjectManifest.load s₀.tree
          ((Path.join ['/', 'w', 's'] ['.']).join "package.json") with
      | .error _ => false
      | .ok project =>
        match outcome (writeFile
            (((Path.join ['/', 'w', 's'] ['.']).join plainConfig.exportDir).join "package.json")
            (PackageManifest.assemble project plainConfig).text) s₀ with
        | (.error _, _) => false
        | (.ok _, s₁) =>
          match outcome (copyFile ((Path.join ['/', 'w', 's'] ['.']).join plainConfig.readme)
              (((Path.join ['/', 'w', 's'] ['.']).join plainConfig.exportDir).join "README.md"))
              s₁ with
          | (.error _, _) => false
          | (.ok _, s₂) =>
            match outcome (copyFile ((Path.join ['/', 'w', 's'] ['.']).join plainConfig.license)
                (((Path.join ['/', 'w', 's'] ['.']).join plainConfig.exportDir).join "LICENSE"))
                s₂ with
            | (.ok _, _) => false
            | (.error e, _) =>
              decide (e =
                .access .copy ((Path.join ['/', 'w', 's'] ['.']).join plainConfig.license)
                  .notFound)) = true := by
    decide +kernel
  split at hphases
  · cases hphases
  rename_i s₀ hprepare
  split at hphases
  · cases hphases
  rename_i project hload
  split at hphases
  · cases hphases
  rename_i s₁ hwrite
  split at hphases
  · cases hphases
  rename_i s₂ hreadme
  split at hphases
  · cases hphases
  rename_i e s hlicense
  have he := of_decide_eq_true hphases
  have hfails : FailsIn noPrograms (Path.join ['/', 'w', 's'] ['.']) exportOnly plainConfig [] s₀
      .license e s := .license hload hwrite hreadme hlicense
  have hrun : outcome (run noPrograms ['/', 'w', 's'] exportOnly) { tree := unlicensedProject }
      = (.error e, s) := by
    rw [run_of_prepare_ok noPrograms ['/', 'w', 's'] exportOnly []
      (s := { tree := unlicensedProject }) hresolve hprepare]
    exact hfails.outcome_eq
  obtain ⟨here, hlookup, -, hleaves⟩ := run_leaves noPrograms (a := exportOnly) (c := plainConfig)
    (by decide +kernel) (by decide +kernel) rfl (by decide) (by decide) hresolve (by decide +kernel)
    hprepare hrun
  obtain ⟨files, hfront, hholds⟩ := hleaves _ hfails
  rw [he] at hrun
  exact ⟨s, here, files, hrun, hlookup, hfront, hholds⟩

end InterfacePackage.Export
