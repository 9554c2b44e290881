import InterfacePackage.Proofs.Export.Inputs

/-!
# Compiled forms

A compiled form goes into the package under the name of its interface, while the compiler keeps it
under the name of the interface's file. An interface keeps its own compiled form as long as no other
one has its name and another file name; of two that have, the last takes the place of the first.
Main statement: `run_keeps_compiled`.
-/

namespace InterfacePackage

namespace Export

open FileTree

variable {found t t₁ t₂ : FileTree} {workspace : Path} {c : Config} {here q : Place}
  {done : List (List Text)} {ns : List Text} {n m : Text} {source content : Bytes}

/-! ## One compiled form -/

/-- The compiled form of a file is in the package as the compiler has it. -/
def IsKept (t : FileTree) (workspace : Path) (c : Config) (here : Place) (n : Text) : Prop :=
  ∃ p content,
    t.lookup (artifactPath workspace c n (Path.stemOf n)) = .ok (p, .file content) ∧
    t.lookup (abiPath workspace c (Path.stemOf n))
      = .ok (abiPlace here (Path.stemOf n), .file content)

/-- It stays there when an interface of another name is exported, unless that changes the compiler's
file. -/
theorem IsKept.lays (h : IsKept t workspace c here m) (ht : t.IsProper)
    (hcontract : Lays t here (contractPlace here ns) source t₁)
    (habi : Lays t₁ here (abiPlace here (Path.stemOf n)) content t₂)
    (hname : Path.stemOf m ≠ Path.stemOf n)
    (hapart : ∀ p bytes,
      t.lookup (artifactPath workspace c m (Path.stemOf m)) = .ok (p, .file bytes) →
        p ≠ contractPlace here ns ∧ (p = abiPlace here (Path.stemOf n) → bytes = content)) :
    IsKept t₂ workspace c here m := by
  obtain ⟨p, bytes, hartifact, hcompiled⟩ := h
  obtain ⟨hp, hsame⟩ := hapart p bytes hartifact
  have ht₁ := hcontract.fills.proper
  have hartifact₂ := habi.lookup_file ht₁ (hcontract.lookup_file ht hartifact)
  have hcompiled₂ := habi.lookup_file ht₁ (hcontract.lookup_file ht hcompiled)
  rw [if_neg (Ne.symm (contractPlace_ne_abiPlace ns (Path.stemOf m))),
    if_neg fun hplace => hname (abiPlace_inj hplace)] at hcompiled₂
  rw [if_neg hp] at hartifact₂
  refine ⟨p, bytes, ?_, hcompiled₂⟩
  by_cases hplace : p = abiPlace here (Path.stemOf n)
  · rw [if_pos hplace, ← hsame hplace] at hartifact₂
    exact hartifact₂
  · rw [if_neg hplace] at hartifact₂
    exact hartifact₂

/-! ## A package that had no files -/

/-- The files of a package are those of its front and of the interfaces done, and the compiler's
files for these are not where their compiled forms go. -/
structure IsClean (t : FileTree) (workspace : Path) (c : Config) (here : Place)
    (done : List (List Text)) : Prop where
  files : ∀ k names, IsFile (t.entryAt (here ++ k :: names)) → k ∈ frontNames ∨
    ∃ ns ∈ done, ∃ n, ns.getLast? = some n ∧ (here ++ k :: names = contractPlace here ns ∨
      here ++ k :: names = abiPlace here (Path.stemOf n))
  apart : ∀ ns ∈ done, ∀ n, ns.getLast? = some n → ∀ p e,
    t.lookup (artifactPath workspace c n (Path.stemOf n)) = .ok (p, e) →
      p ≠ abiPlace here (Path.stemOf n)

namespace IsClean

/-- There is no file yet where the source of a further interface goes. -/
theorem not_isFile_contractPlace (h : IsClean t workspace c here done) (hns : ns ∉ done) :
    ¬ IsFile (t.entryAt (contractPlace here ns)) := by
  intro hfile
  rcases h.files _ _ hfile with hfront | ⟨ms, hms, m, -, hplace | hplace⟩
  · exact absurd hfront (by decide)
  · exact hns (contractPlace_inj hplace ▸ hms)
  · exact contractPlace_ne_abiPlace ns _ hplace

/-- A file in the place of a compiled form is that of an interface done. -/
theorem exists_of_isFile_abiPlace (h : IsClean t workspace c here done) {name : Text}
    (hfile : IsFile (t.entryAt (abiPlace here name))) :
    ∃ ms ∈ done, ∃ m, ms.getLast? = some m ∧ Path.stemOf m = name := by
  rcases h.files _ _ hfile with hfront | ⟨ms, hms, m, hlast, hplace | hplace⟩
  · exact absurd hfront (by decide)
  · exact absurd hplace.symm (contractPlace_ne_abiPlace ms name)
  · exact ⟨ms, hms, m, hlast, (abiPlace_inj hplace).symm⟩

/-- One more interface brings the two files of its own. -/
theorem files_snoc (h : IsClean t workspace c here done) (hlast : ns.getLast? = some n)
    (hcontract : Lays t here (contractPlace here ns) source t₁)
    (habi : Lays t₁ here (abiPlace here (Path.stemOf n)) content t₂) {k : Name} {names : List Name}
    (hfile : IsFile (t₂.entryAt (here ++ k :: names))) : k ∈ frontNames ∨
    ∃ ms ∈ done ++ [ns], ∃ m, ms.getLast? = some m ∧ (here ++ k :: names = contractPlace here ms ∨
      here ++ k :: names = abiPlace here (Path.stemOf m)) := by
  by_cases hqAbi : here ++ k :: names = abiPlace here (Path.stemOf n)
  · exact .inr ⟨ns, by simp, n, hlast, .inr hqAbi⟩
  by_cases hqContract : here ++ k :: names = contractPlace here ns
  · exact .inr ⟨ns, by simp, n, hlast, .inl hqContract⟩
  have hold := hcontract.isFile_of_ne hqContract (habi.isFile_of_ne hqAbi hfile)
  rcases h.files k names hold with hfront | ⟨ms, hms, m, hm, hplace⟩
  · exact .inl hfront
  · exact .inr ⟨ms, List.mem_append_left _ hms, m, hm, hplace⟩

end IsClean

/-! ## All interfaces -/

/-- How far an export has come: all interfaces done have their compiled forms. -/
structure Delivers (found t : FileTree) (workspace : Path) (c : Config) (here : Place)
    (done : List (List Text)) : Prop where
  fills : Fills found here t
  kept : ∀ ns ∈ done, ∀ n, ns.getLast? = some n → IsKept t workspace c here n
  clean : t.IsLinkless ∨ IsClean t workspace c here done

namespace Delivers

section

variable (h : Delivers found t workspace c here done) (hns : ns ∉ done)
  (hlast : ns.getLast? = some n)
  (hstems : ∀ ms ∈ done, ∀ m, ms.getLast? = some m → Path.stemOf m = Path.stemOf n → m = n)
  (hcontract : Lays t here (contractPlace here ns) source t₁)
  (habi : Lays t₁ here (abiPlace here (Path.stemOf n)) content t₂)

include h hns hstems hcontract habi

/-- In a clean package the compiler's file of an interface is not where one of that name already has
its compiled form, so exporting it again changes neither. -/
theorem eq_of_clean (hclean : IsClean t workspace c here done)
    (hfile : IsFile (t.entryAt (abiPlace here (Path.stemOf n)))) {p : Place} {e : Entry}
    (hartifact : t₂.lookup (artifactPath workspace c n (Path.stemOf n)) = .ok (p, e)) :
    p ≠ abiPlace here (Path.stemOf n) ∧ t.entryAt (abiPlace here (Path.stemOf n)) = some e := by
  obtain ⟨ms, hms, m, hm, hsame⟩ := hclean.exists_of_isFile_abiPlace hfile
  obtain rfl := hstems ms hms m hm hsame
  have ht := h.fills.proper
  obtain ⟨p', bytes, hold, hcompiled⟩ := h.kept ms hms m hm
  have hother := hclean.apart ms hms m hm p' _ hold
  have hcontractPlace : p' ≠ contractPlace here ns := by
    rintro rfl
    exact hclean.not_isFile_contractPlace hns ⟨bytes, (denotes_of_lookup ht.sound hold).2.1⟩
  have hnew := habi.lookup_file hcontract.fills.proper (hcontract.lookup_file ht hold)
  rw [if_neg hcontractPlace, if_neg hother, hartifact] at hnew
  cases hnew
  exact ⟨hother, (denotes_of_lookup ht.sound hcompiled).2.1⟩

/-- An interface of another name keeps its compiled form. -/
theorem isKept_of_ne (habs : workspace.isAbsolute = true) {ms : List Text} (hms : ms ∈ done)
    (hm : ms.getLast? = some m) (hnormal : ∀ k ∈ ms, IsNormal k) (hlast : ns.getLast? = some n)
    (hname : Path.stemOf m ≠ Path.stemOf n) {there : Place}
    (hartifact : t₂.lookup (artifactPath workspace c n (Path.stemOf n))
      = .ok (there, .file content)) : IsKept t₂ workspace c here m := by
  have ht := h.fills.proper
  refine (h.kept ms hms m hm).lays ht hcontract habi hname fun p bytes hold => ?_
  obtain ⟨hdenotes, hentry, -⟩ := denotes_of_lookup ht.sound hold
  rcases h.clean with hlinks | hclean
  · -- without links the compiler's file has the name of its interface, which neither place has
    have hmNormal := hnormal m (List.mem_of_getLast? hm)
    refine ⟨?_, ?_⟩
    · rintro rfl
      obtain ⟨above, hplace⟩ := exists_of_denotes_artifact hlinks habs hmNormal hdenotes
      obtain ⟨front, rfl⟩ := List.getLast?_eq_some_iff.1 hlast
      rw [contractPlace, List.map_append, ← List.cons_append, ← List.append_assoc] at hplace
      have hn := Utf8.encode_injective (List.singleton_inj.1 (List.append_inj' hplace rfl).2)
      rw [hn, Path.stemOf_json (Path.stemOf_ne_nil hmNormal.1)] at hname
      exact hname rfl
    · rintro rfl
      exact absurd (stemOf_eq_of_artifact hlinks habs hmNormal hdenotes) hname
  · refine ⟨?_, ?_⟩
    · rintro rfl
      exact hclean.not_isFile_contractPlace hns ⟨bytes, hentry⟩
    · rintro rfl
      obtain ⟨-, hcompiled⟩ :=
        h.eq_of_clean hns hstems hcontract habi hclean ⟨bytes, hentry⟩ hartifact
      rw [hentry] at hcompiled
      cases hcompiled
      rfl

/-- A clean package stays clean. -/
theorem isClean (hclean : IsClean t workspace c here done) (hlast : ns.getLast? = some n)
    {there : Place} (hthere : IsFile (t₁.entryAt there))
    (hartifact : t₂.lookup (artifactPath workspace c n (Path.stemOf n))
      = .ok (there, .file content)) : IsClean t₂ workspace c here (done ++ [ns]) := by
  have ht := h.fills.proper
  refine ⟨fun k names hfile => hclean.files_snoc hlast hcontract habi hfile, ?_⟩
  intro ms hms m hm p e hfound
  rcases List.mem_append.1 hms with hms | hms
  · obtain ⟨p', bytes, hold, -⟩ := h.kept ms hms m hm
    have hnew := habi.lookup_file hcontract.fills.proper (hcontract.lookup_file ht hold)
    rw [hfound] at hnew
    cases hnew
    exact hclean.apart ms hms m hm _ _ hold
  · rw [List.mem_singleton.1 hms, hlast] at hm
    cases hm
    rw [hartifact] at hfound
    cases hfound
    by_cases hfile : IsFile (t.entryAt (abiPlace here (Path.stemOf n)))
    · exact (h.eq_of_clean hns hstems hcontract habi hclean hfile hartifact).1
    · -- nothing was there, while there has been something to copy
      rintro rfl
      exact hfile (hcontract.isFile_of_ne (Ne.symm (contractPlace_ne_abiPlace ns _)) hthere)

end

/-- One more interface exported: it has its compiled form, and those done keep theirs. -/
theorem snoc (h : Delivers found t workspace c here done) (habs : workspace.isAbsolute = true)
    (hns : ns ∉ done) (hlast : ns.getLast? = some n) (hnormal : ∀ ms ∈ done, ∀ k ∈ ms, IsNormal k)
    (hstems : ∀ ms ∈ done, ∀ m, ms.getLast? = some m → Path.stemOf m = Path.stemOf n → m = n)
    (hcontract : Lays t here (contractPlace here ns) source t₁)
    (habi : Lays t₁ here (abiPlace here (Path.stemOf n)) content t₂) {there : Place}
    (hthere : IsFile (t₁.entryAt there))
    (hartifact : t₂.lookup (artifactPath workspace c n (Path.stemOf n))
      = .ok (there, .file content))
    (hcompiled : t₂.lookup (abiPath workspace c (Path.stemOf n))
      = .ok (abiPlace here (Path.stemOf n), .file content)) :
    Delivers found t₂ workspace c here (done ++ [ns]) := by
  have hfills := hcontract.fills.trans habi.fills
  have hself : IsKept t₂ workspace c here n := ⟨there, content, hartifact, hcompiled⟩
  refine ⟨h.fills.trans hfills, fun ms hms m hm => ?_, ?_⟩
  · rcases List.mem_append.1 hms with hms | hms
    · by_cases hname : Path.stemOf m = Path.stemOf n
      · rw [hstems ms hms m hm hname]
        exact hself
      · exact h.isKept_of_ne hns hstems hcontract habi habs hms hm (hnormal ms hms) hlast hname
          hartifact
    · rw [List.mem_singleton.1 hms, hlast] at hm
      cases hm
      exact hself
  · rcases h.clean with hlinks | hclean
    · exact .inl (hfills.isLinkless hlinks)
    · exact .inr (h.isClean hns hstems hcontract habi hclean hlast hthere hartifact)

end Delivers

/-- What holds before the interfaces are exported one after the other holds after it, if each of
them keeps it. No interface comes twice, and each of them has a name. -/
theorem exportInterfaces_induction {s s' : Session} {table : Import.Table}
    {interfaces : List (List Text)} {results : List ExportedInterface}
    {motive : List (List Text) → Session → Prop}
    (hnodup : interfaces.Nodup) (hnames : [] ∉ interfaces) (hstart : motive [] s)
    (hstep : ∀ done ns n s₁ x s₂, (∀ ms ∈ done, ms ∈ interfaces) → ns ∈ interfaces →
      ns ∉ done → ns.getLast? = some n → motive done s₁ →
      outcome (exportInterface workspace c table (interfacePath c ns)) s₁ = (.ok x, s₂) →
      motive (done ++ [ns]) s₂)
    (hrun : outcome (interfaces.mapM fun ns =>
      exportInterface workspace c table (interfacePath c ns)) s = (.ok results, s')) :
    motive interfaces s' := by
  have hall := @Ensures.mapM Failure Session ExportedInterface (List Text)
    (fun ns => exportInterface workspace c table (interfacePath c ns))
    (fun done _ _ s₁ => motive done s₁) (fun _ _ => True) interfaces ?_
  · exact hall.ok hstart hrun
  · intro done results ns left hinterfaces
    refine .of_ok fun s₁ x s₂ hdone hexport => ?_
    have hns : ns ∈ interfaces := by simp [hinterfaces]
    have hmem : ∀ ms ∈ done, ms ∈ interfaces := fun ms hms => by simp [hinterfaces, hms]
    have hnew : ns ∉ done := fun hold => by
      rw [hinterfaces] at hnodup
      exact (List.nodup_append.1 hnodup).2.2 ns hold ns List.mem_cons_self rfl
    obtain ⟨n, hlast⟩ := exists_getLast? hnames hns
    exact hstep done ns n s₁ x s₂ hmem hns hnew hlast hdone hexport

/-- All interfaces exported one after another. -/
theorem exportInterfaces_delivers {s s' : Session} {table : Import.Table}
    {interfaces : List (List Text)} {results : List ExportedInterface}
    (habs : workspace.isAbsolute = true)
    (hsettled : Settled s.tree (workspace.join c.exportDir) here)
    (hstart : Delivers s.tree s.tree workspace c here [])
    (hnormal : ∀ ns ∈ interfaces, ∀ n ∈ ns, IsNormal n) (hnodup : interfaces.Nodup)
    (hnames : [] ∉ interfaces)
    (hstems : ∀ ns ∈ interfaces, ∀ ms ∈ interfaces, ∀ n m, ns.getLast? = some n →
      ms.getLast? = some m → Path.stemOf m = Path.stemOf n → m = n)
    (hrun : outcome (interfaces.mapM fun ns =>
      exportInterface workspace c table (interfacePath c ns)) s = (.ok results, s')) :
    Delivers s.tree s'.tree workspace c here interfaces := by
  refine exportInterfaces_induction
    (motive := fun done s₁ => Delivers s.tree s₁.tree workspace c here done)
    hnodup hnames hstart ?_ hrun
  intro done ns n s₁ x s₂ hdone hns hnew hlast hdelivers hexport
  obtain ⟨source, t₁, there, content, -, hcontract, hthere, habi, hartifact, hcompiled, -⟩ :=
    exportInterface_ok habs (hsettled.fills hdelivers.fills) (hnormal ns hns) hlast hexport
  exact hdelivers.snoc habs hnew hlast (fun ms hms => hnormal ms (hdone ms hms))
    (fun ms hms m hm => hstems ns hns ms (hdone ms hms) n m hlast hm) hcontract habi hthere
    hartifact hcompiled

/-! ## The directory before the interfaces come -/

/-- There are no files and no links in the directory that a path denotes. -/
def IsFresh (t : FileTree) (dir : Path) : Prop :=
  ∀ here, t.Denotes dir here → t.entryAt here = some .directory →
    ∀ q, isBelow here q = true → t.entryAt q = none ∨ t.entryAt q = some .directory

/-- A prepared directory is fresh if its path does not climb. -/
theorem isFresh_of_level {s s' : Session} {dir : Path} (ht : s.tree.IsProper)
    (habs : dir.isAbsolute = true) (hup : .up ∉ dir.route)
    (hrun : outcome (prepare workspace dir) s = (.ok (), s')) : IsFresh s'.tree dir := by
  have hdir : dir ≠ [] := Path.ne_nil_of_isAbsolute habs
  intro here hdenotes hdirectory q hq
  cases preparing_of_outcome ht hdir hrun with
  | made _ hmissing hbuilds _ hmade =>
    obtain ⟨place, hfound, hcase⟩ := makeDirectories_ok ht habs hup (hmade rfl)
    rcases hcase with hsame | hnew
    · rw [hsame] at hfound
      rw [exists?, hfound] at hmissing
      cases hmissing
    · -- nothing was below a place where nothing was
      have hplace := (denotes_of_lookup hbuilds.proper.sound hfound).1
      rw [Denotes.unique hbuilds.proper.sound hdenotes hplace] at hq
      exact hbuilds.gained (ht.sound.none_below (by simp [hnew]) hq)
  | emptied _ hlookup hstrips _ hempty =>
    have hplace := (denotes_of_lookup ht.sound hlookup).1
    rw [Denotes.unique ht.sound (hstrips.denotes hdenotes hdirectory) hplace] at hq
    exact (hempty rfl q hq).imp_right fun hleft => hleft.1

/-- When the front of a package has been written, its directory is settled, and nothing else has
been written there. -/
theorem exists_of_writeFront {s s' : Session} (ht : s.tree.IsProper)
    (habs : workspace.isAbsolute = true)
    (hclear : s.tree.IsLinkless ∨ IsFresh s.tree (workspace.join c.exportDir))
    (hrun : outcome (writeFront workspace (workspace.join c.exportDir) c) s = (.ok (), s')) :
    ∃ here, Settled s.tree (workspace.join c.exportDir) here ∧
      Within s.tree here (· ∈ frontNames) s'.tree := by
  have hdirAbs := Path.isAbsolute_join_of_isAbsolute habs c.exportDir
  obtain ⟨here, hdenotes, hdirectory⟩ : ∃ here, s.tree.Denotes (workspace.join c.exportDir) here ∧
      s.tree.entryAt here = some .directory := by
    obtain ⟨project, s₁, hload, hrest⟩ := outcome_bind_eq_ok.1 hrun
    obtain ⟨-, rfl⟩ := outcome_inspect_eq_ok.1 hload
    obtain ⟨_, s₂, hwrite, -⟩ := outcome_bind_eq_ok.1 hrest
    exact exists_of_write_name ht hdirAbs (by decide) (eq_ok_of_alter_change hwrite)
  have hlinkless : ∀ q, isBelow here q = true → ¬ IsLink (s.tree.entryAt q) := by
    intro q hq
    rcases hclear with hlinks | hfresh
    · exact hlinks q
    · rcases hfresh here hdenotes hdirectory q hq with hnone | hdir
      · simp [IsLink, hnone]
      · simp [IsLink, hdir]
  have hsettled : Settled s.tree (workspace.join c.exportDir) here :=
    ⟨ht, hdirAbs, hdenotes, hdirectory, hlinkless⟩
  have hkeeps : Keeps (Within s.tree here (· ∈ frontNames))
      (writeFront workspace (workspace.join c.exportDir) c) :=
    (withstands_within hsettled (· ∈ frontNames)).writeFront hdirAbs (by decide) (by decide)
      (by decide)
  exact ⟨here, hsettled, hkeeps.ok (.refl ht here _) hrun⟩

/-- Then the export can begin with the interfaces. -/
theorem Delivers.start (hsettled : Settled t (workspace.join c.exportDir) here)
    (hclear : t.IsLinkless ∨ IsFresh t (workspace.join c.exportDir))
    (hwithin : Within t here (· ∈ frontNames) t₁) : Delivers t₁ t₁ workspace c here [] := by
  refine ⟨.refl hwithin.fills.proper here, nofun, ?_⟩
  rcases hclear with hlinks | hfresh
  · exact .inl (hwithin.fills.isLinkless hlinks)
  · refine .inr ⟨fun k names hfile => .inl (Classical.byContradiction fun hk => ?_), nofun⟩
    rw [hwithin.same k names hk] at hfile
    obtain ⟨content, hfile⟩ := hfile
    rcases hfresh here hsettled.denotes hsettled.directory _
      (isBelow_append here (List.cons_ne_nil k names)) with hnone | hdir
    · rw [hnone] at hfile
      cases hfile
    · rw [hdir] at hfile
      cases hfile

/-! ## A successful export -/

/-- Every interface has its own compiled form when the package has been filled, unless another one
has its name and another file name. -/
theorem fillPackage_delivers {s s' : Session} {table : Import.Table}
    {results : List ExportedInterface} (habs : workspace.isAbsolute = true)
    (hsettled : Settled s.tree (workspace.join c.exportDir) here)
    (hstart : Delivers s.tree s.tree workspace c here [])
    (hrun : outcome (fillPackage workspace c table []) s = (.ok results, s'))
    (hnames : ∀ x ∈ results, ∀ y ∈ results, x.name = y.name →
      x.source.fileName = y.source.fileName) :
    ∀ x ∈ results, ∃ content, s'.tree.read (workspace.join x.abi) = .ok content ∧
      s'.tree.read (artifactPath workspace c (x.source.fileName.getD x.name) x.name)
        = .ok content := by
  obtain ⟨files, s₁, hfind, hexport, htree⟩ := fillPackage_eq_ok hrun
  obtain ⟨tokens, relatives, interfaces, -, -, rfl, hnormal, -, hsorted⟩ :=
    findInterfaces_spec hsettled.proper hfind
  rw [List.map_map] at hexport
  have hreported := exportByTurns_reports habs hsettled hnormal hexport
  have hnil := nil_notMem_of_reported hreported
  -- the file names of interfaces are those in the results
  have hstems : ∀ ns ∈ interfaces, ∀ ms ∈ interfaces, ∀ n m, ns.getLast? = some n →
      ms.getLast? = some m → Path.stemOf m = Path.stemOf n → m = n := by
    intro ns hns ms hms n m hn hm hsame
    obtain ⟨x, hx, n', relocated, hn', rfl⟩ := exists_of_forall₂ hreported hns
    obtain ⟨y, hy, m', relocated', hm', rfl⟩ := exists_of_forall₂ hreported hms
    rw [hn] at hn'
    rw [hm] at hm'
    cases hn'
    cases hm'
    have hnamed := hnames _ hy _ hx hsame
    rw [reportOf, reportOf, fileName_interfacePath c (hnormal ns hns) hn,
      fileName_interfacePath c (hnormal ms hms) hm] at hnamed
    exact Option.some.inj hnamed
  -- without turns the interfaces come one after the other
  rw [sideBySide_nil, List.mapM_map] at hexport
  have hdelivers := exportInterfaces_delivers habs hsettled hstart hnormal (nodup_of_sorted hsorted)
    hnil hstems hexport
  intro x hx
  obtain ⟨ns, hns, n, relocated, hlast, rfl⟩ := exists_of_forall₂ hreported.flip hx
  obtain ⟨p, content, hartifact, hcompiled⟩ := hdelivers.kept ns hns n hlast
  rw [htree]
  refine ⟨content, read_eq_ok_iff.2 ⟨_, hcompiled⟩, ?_⟩
  rw [reportOf, fileName_interfacePath c (hnormal ns hns) hlast]
  exact read_eq_ok_iff.2 ⟨p, hartifact⟩

/-- When interfaces are exported one after the other, every one that a successful export reports has
its own compiled form in the package: under its path there stands what the compiler has put out for
its file. Two interfaces must not have the same name and different file names, since the last one
would win. An export path that climbs may miss that its directory is there, so then there must be no
files and no links in it once it is prepared, or no links at all. -/
theorem run_keeps_compiled (programs : Programs) {current : Path} {a : Arguments} (ht : t.IsProper)
    (hcurrent : current.isAbsolute = true)
    (hresolve : Config.resolve t (current.join a.workspace) a = .ok c)
    (hclimbs : .up ∈ ((current.join a.workspace).join c.exportDir).route → t.IsLinkless ∨
      ∀ s, outcome (prepare (current.join a.workspace)
        ((current.join a.workspace).join c.exportDir)) { tree := t } = (.ok (), s) →
          IsFresh s.tree ((current.join a.workspace).join c.exportDir))
    {summary : Summary} {s : Session}
    (hrun : outcome (run programs current a) { tree := t } = (.ok summary, s))
    (hnames : ∀ x ∈ summary.interfaces, ∀ y ∈ summary.interfaces, x.name = y.name →
      x.source.fileName = y.source.fileName) :
    ∀ x ∈ summary.interfaces, ∃ content,
      s.tree.read ((current.join a.workspace).join x.abi) = .ok content ∧
      s.tree.read (artifactPath (current.join a.workspace) c
        (x.source.fileName.getD x.name) x.name) = .ok content := by
  have habs := Path.isAbsolute_join_of_isAbsolute hcurrent a.workspace
  have hdirAbs := Path.isAbsolute_join_of_isAbsolute habs c.exportDir
  rw [run_of_resolve_ok programs current a [] (s := { tree := t }) hresolve] at hrun
  obtain ⟨results, s₁, hassemble, hrest⟩ := outcome_bind_eq_ok.1 hrun
  obtain ⟨_, s₂, hfinish, hreturn⟩ := outcome_bind_eq_ok.1 hrest
  cases hreturn
  obtain ⟨_, s₃, hprepare, hpack⟩ := outcome_bind_eq_ok.1 hassemble
  obtain ⟨_, s₄, hfront, hrest⟩ := outcome_bind_eq_ok.1 hpack
  obtain ⟨table, s₅, hload, hfill⟩ := outcome_bind_eq_ok.1 hrest
  have ht₃ : s₃.tree.IsProper :=
    (preparing_of_outcome (s := { tree := t }) ht (Path.ne_nil_of_isAbsolute hdirAbs)
      hprepare).proper ht
  have hclear : s₃.tree.IsLinkless ∨
      IsFresh s₃.tree ((current.join a.workspace).join c.exportDir) := by
    by_cases hup : .up ∈ ((current.join a.workspace).join c.exportDir).route
    · rcases hclimbs hup with hlinks | hfresh
      · exact .inl (prepare_retains (s := { tree := t }) ht hlinks hdirAbs hprepare).1.linkless
      · exact .inr (hfresh s₃ hprepare)
    · exact .inr (isFresh_of_level (s := { tree := t }) ht hdirAbs hup hprepare)
  obtain ⟨here, hsettled, hwithin⟩ := exists_of_writeFront ht₃ habs hclear hfront
  obtain ⟨htree, -⟩ := loadRemappings_ok hload
  have hstart : Delivers s₅.tree s₅.tree (current.join a.workspace) c here [] := by
    rw [htree]
    exact .start hsettled hclear hwithin
  have hsettled₅ : Settled s₅.tree ((current.join a.workspace).join c.exportDir) here := by
    rw [htree]
    exact hsettled.fills hwithin.fills
  -- programs leave the tree alone
  have hfinal : s.tree = s₁.tree :=
    (@keeps_finish (fun t' => t' = s₁.tree) programs _ a c).ok rfl hfinish
  rw [hfinal]
  exact fillPackage_delivers habs hsettled₅ hstart hfill hnames

/-- All interfaces of the twin project have their compiled forms in the package, also the two that
have one file name and so share theirs. -/
theorem run_keeps_compiled_twinProject :
    ∃ summary s,
      outcome (run noPrograms ['/', 'w', 's'] exportOnly) { tree := twinProject }
        = (.ok summary, s) ∧
      summary.interfaces.map (·.name) = ["IA".toList, "IB".toList, "IA".toList] ∧
      ∀ x ∈ summary.interfaces, ∃ content,
        s.tree.read ((Path.join ['/', 'w', 's'] ['.']).join x.abi) = .ok content ∧
        s.tree.read (artifactPath (Path.join ['/', 'w', 's'] ['.'])
          (Config.standard.overlay exportOnly.layer) (x.source.fileName.getD x.name) x.name)
            = .ok content := by
  have hresolve : Config.resolve twinProject (Path.join ['/', 'w', 's'] ['.']) exportOnly
      = .ok (Config.standard.overlay exportOnly.layer) :=
    resolve_of_no_file rfl (by decide +kernel)
  have hup : .up ∉ ((Path.join ['/', 'w', 's'] ['.']).join
      (Config.standard.overlay exportOnly.layer).exportDir).route := by decide +kernel
  have hsummary : (match (outcome (run noPrograms ['/', 'w', 's'] exportOnly)
      { tree := twinProject }).1 with
    | .ok summary => decide (summary.interfaces.map (·.name)
        = ["IA".toList, "IB".toList, "IA".toList] ∧
      ∀ x ∈ summary.interfaces, ∀ y ∈ summary.interfaces, x.name = y.name →
        x.source.fileName = y.source.fileName)
    | .error _ => false) = true := by
    simp only [run, assemble, pack, packInterfaces, fillPackage, findInterfaces, filesWhere_eq]
    decide +kernel
  cases hrun : outcome (run noPrograms ['/', 'w', 's'] exportOnly) { tree := twinProject } with
  | mk result s =>
    rw [hrun] at hsummary
    cases result with
    | error e => cases hsummary
    | ok summary =>
      obtain ⟨hreported, hnames⟩ := of_decide_eq_true hsummary
      exact ⟨summary, s, rfl, hreported,
        run_keeps_compiled noPrograms (by decide +kernel) rfl hresolve (fun h => absurd h hup) hrun
          hnames⟩

/-- The compiled project with a second interface of the same name beside the first one, in a file of
another name that has its own compiled form, and with a pattern that takes both files. -/
def rivalProject : FileTree :=
  [(["ws", "interfaces-exporter.json"],
      Entry.file (Utf8.encode "\x7b\"interfacesGlob\": \"**\"\x7d")),
    (["ws", "solidity", "interfaces", "sub", "IA.vy"], .file []),
    (["ws", "out", "IA.vy"], .directory),
    (["ws", "out", "IA.vy", "IA.json"], .file (Utf8.encode "[1]"))].foldl
    (fun t x => t.put (x.1.map fun n : String => Utf8.encode n.toList) x.2) compiledProject

/-- Its export succeeds, but for the first interface the package has the compiled form of the
second. -/
theorem run_confuses_rivals :
    ∃ summary s c x,
      outcome (run noPrograms ['/', 'w', 's'] exportOnly) { tree := rivalProject }
        = (.ok summary, s) ∧
      Config.resolve rivalProject (Path.join ['/', 'w', 's'] ['.']) exportOnly = .ok c ∧
      x ∈ summary.interfaces ∧
      s.tree.read ((Path.join ['/', 'w', 's'] ['.']).join x.abi) = .ok (Utf8.encode "[1]") ∧
      s.tree.read (artifactPath (Path.join ['/', 'w', 's'] ['.']) c
        (x.source.fileName.getD x.name) x.name) = .ok (Utf8.encode "[]") := by
  have hclash : (match (outcome (run noPrograms ['/', 'w', 's'] exportOnly)
      { tree := rivalProject }).1 with
    | .ok summary => summary.interfaces.any fun x =>
      match Config.resolve rivalProject (Path.join ['/', 'w', 's'] ['.']) exportOnly with
      | .ok c =>
        let left := (outcome (run noPrograms ['/', 'w', 's'] exportOnly)
          { tree := rivalProject }).2.tree
        decide (left.read ((Path.join ['/', 'w', 's'] ['.']).join x.abi)
          = .ok (Utf8.encode "[1]")) &&
        decide (left.read (artifactPath (Path.join ['/', 'w', 's'] ['.']) c
          (x.source.fileName.getD x.name) x.name) = .ok (Utf8.encode "[]"))
      | .error _ => false
    | .error _ => false) = true := by
    simp only [run, assemble, pack, packInterfaces, fillPackage, findInterfaces, filesWhere_eq]
    decide +kernel
  cases hrun : outcome (run noPrograms ['/', 'w', 's'] exportOnly) { tree := rivalProject } with
  | mk result s =>
    rw [hrun] at hclash
    cases result with
    | error e => cases hclash
    | ok summary =>
      obtain ⟨x, hx, hsame⟩ := List.any_eq_true.1 hclash
      cases hresolve : Config.resolve rivalProject (Path.join ['/', 'w', 's'] ['.']) exportOnly with
      | error e =>
        rw [hresolve] at hsame
        cases hsame
      | ok c =>
        rw [hresolve] at hsame
        dsimp only at hsame
        rw [Bool.and_eq_true, decide_eq_true_eq, decide_eq_true_eq] at hsame
        exact ⟨summary, s, c, x, rfl, rfl, hx, hsame⟩

end Export

end InterfacePackage
