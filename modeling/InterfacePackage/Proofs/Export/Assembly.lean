import InterfacePackage.Export.Run
import InterfacePackage.Proofs.Export.Action
import InterfacePackage.Proofs.Export.Layout
import InterfacePackage.Proofs.Export.Script
import InterfacePackage.Proofs.FileTree.Grow

/-!
# A package assembled

Once its directory is settled, every part of an export that follows fills that directory, whatever
comes of it, and what is left to programs does not touch the tree. The parts make directories above
paths into the export directory and put files under such paths, and keep every condition that these
two kinds of change do not break. Main statements: `Withstands.packInterfaces` and `keeps_finish`.
-/

namespace InterfacePackage.Export

open FileTree

variable {dir path source : Path} {here : Place} {names : List Name} {t : FileTree}

/-! ## Conditions on the tree -/

/-- No failure of an operation on the tree refuses the export directory. -/
theorem not_isRefusal_access (activity : Activity) (path : Path) (fault : Fault) :
    ¬ (Failure.access activity path fault).IsRefusal := by
  rintro ⟨x, w, h⟩
  cases h

/-- A failure that is passed on under another name fails under that name. -/
theorem eq_of_mapError_eq_error {ε ε' α : Type} {f : ε → ε'} {x : Except ε α} {e : ε'}
    (h : x.mapError f = .error e) : ∃ fault, e = f fault := by
  cases x with
  | ok a => cases h
  | error fault =>
    cases h
    exact ⟨fault, rfl⟩

/-- A result that is passed on under any name for its failures is the result. -/
theorem eq_ok_of_mapError_eq_ok {ε ε' α : Type} {f : ε → ε'} {x : Except ε α} {a : α}
    (h : x.mapError f = .ok a) : x = .ok a := by
  cases x with
  | ok _ =>
    cases h
    rfl
  | error fault => cases h

/-- What a part of an export does at most: it keeps a condition on the tree, and does not refuse the
export directory. -/
def Keeps {α : Type} (P : FileTree → Prop) (act : Action α) : Prop :=
  Ensures (fun s => P s.tree) act (fun _ s => P s.tree) (fun e s => P s.tree ∧ ¬ e.IsRefusal)

/-- A part of an export that does nothing but fill a directory. -/
abbrev FillsOnly {α : Type} (t : FileTree) (here : Place) (act : Action α) : Prop :=
  Keeps (Fills t here) act

section

variable {α β : Type} {P : FileTree → Prop}

theorem Keeps.bind {act : Action α} {next : α → Action β} (h : Keeps P act)
    (hnext : ∀ a, Keeps P (next a)) : Keeps P (act >>= next) :=
  Ensures.bind h hnext

theorem Keeps.pure (a : α) : Keeps P (Pure.pure a : Action α) :=
  Ensures.pure fun _ h => h

/-- Finding something out keeps any condition. -/
theorem keeps_inspect {f : FileTree → Except Failure α}
    (hf : ∀ t e, f t = .error e → ¬ e.IsRefusal) : Keeps P (inspect f) := by
  have hinspect := @ensures_inspect α P (fun e t' => P t' ∧ ¬ e.IsRefusal) f
    fun t' e ht' he => ⟨ht', hf t' e he⟩
  exact hinspect.weaken (fun _ h => h) (fun _ _ h => h.1) (fun _ _ h => h)

/-- One part for each element of a list. -/
theorem keeps_forM {f : α → Action Unit} {xs : List α} (hf : ∀ x ∈ xs, Keeps P (f x)) :
    Keeps P (xs.forM f) :=
  @Ensures.forM _ _ _ f (fun _ _ s => P s.tree) _ xs fun _ x _ hxs => hf x (by simp [hxs])

/-- A change of the tree keeps a condition if it does so whatever comes of it. -/
theorem keeps_alter {act : FileTree.Action Unit} {activity : Activity} {path : Path}
    (hact : ∀ t, P t → P (outcome act t).2) : Keeps P (alter act (.access activity path)) := by
  refine (ensures_alter hact).weaken (fun _ h => h) (fun _ _ h => h) ?_
  rintro e s ⟨hs, fault, rfl⟩
  exact ⟨hs, not_isRefusal_access _ _ _⟩

/-- A single change keeps a condition if it does so where it succeeds. -/
theorem keeps_change {f : FileTree → Except Fault FileTree} {activity : Activity} {path : Path}
    (hf : ∀ t t', P t → f t = .ok t' → P t') :
    Keeps P (alter (change f) (.access activity path)) := by
  refine (ensures_change hf).weaken (fun _ h => h) (fun _ _ h => h) ?_
  rintro e s ⟨hs, fault, rfl⟩
  exact ⟨hs, not_isRefusal_access _ _ _⟩

end

/-! ## Conditions that changes in the export directory do not break -/

/-- A condition that changes below a settled directory do not break: missing directories made above
a path into it, and files put where such a path leads. The first names of these paths are among
those that `first` admits. -/
structure Withstands (P : FileTree → Prop) (dir : Path) (here : Place) (first : Name → Prop) :
    Prop where
  settled : ∀ {t}, P t → Settled t dir here
  paves : ∀ {t : FileTree} {path parent : Path} {n : Name} {names : List Name}, P t → first n →
    dir.IsInto path (n :: names) → path.parent = some parent →
      P (outcome (makeDirectories parent) t).2
  puts : ∀ {t t' : FileTree} {n : Name} {names : List Name} {content : Bytes}, P t → first n →
    Puts t (here ++ n :: names) (.file content) t' → P t'

/-- Filling a settled directory is such a condition, under whatever names. -/
theorem withstands_fills (h : Settled t dir here) :
    Withstands (Fills t here) dir here fun _ => True where
  settled := h.fills
  paves ht' _ hpath hparent :=
    ht'.trans ((h.fills ht').makeDirectories_fills (hpath.parent (by simp) hparent))
  puts ht' _ hputs :=
    ht'.trans (hputs.fills ht'.proper (isBelow_append here (by simp)) (not_isLink_file _))

/-- A directory is filled under some names only, and nothing changes at the root. -/
structure Within (t : FileTree) (here : Place) (first : Name → Prop) (t' : FileTree) : Prop where
  fills : Fills t here t'
  root : t'.entries[([] : Place)]? = t.entries[([] : Place)]?
  same : ∀ n names, ¬ first n → t'.entryAt (here ++ n :: names) = t.entryAt (here ++ n :: names)

theorem Within.refl (ht : t.IsProper) (here : Place) (first : Name → Prop) :
    Within t here first t :=
  ⟨.refl ht here, rfl, fun _ _ _ => rfl⟩

/-- Filling a settled directory under some names is such a condition. -/
theorem withstands_within (h : Settled t dir here) (first : Name → Prop) :
    Withstands (Within t here first) dir here first where
  settled ht' := h.fills ht'.fills
  paves := by
    intro t₁ path parent n names ht₁ hn hpath hparent
    have hpaves := (h.fills ht₁.fills).paves_parent hpath (List.cons_ne_nil n names) hparent
    refine ⟨ht₁.fills.trans hpaves.fills, ?_, fun m ms hm => ?_⟩
    · rw [makeDirectories_root ht₁.fills.proper, ht₁.root]
    · rcases hpaves.entry (here ++ m :: ms) with hsame | ⟨⟨-, hbelow⟩, -, -⟩
      · exact hsame.trans (ht₁.same m ms hm)
      · -- what is above the path in the directory has the first of its names
        obtain ⟨k, rest, heq⟩ := isBelow_iff.1 hbelow
        rw [List.append_assoc, List.append_cancel_left_eq, List.cons_append, List.cons.injEq] at heq
        exact absurd (heq.1 ▸ hn) hm
  puts := by
    intro t₁ t₂ n names content ht₁ hn hputs
    have hfills := hputs.fills ht₁.fills.proper (isBelow_append here (List.cons_ne_nil n names))
      (not_isLink_file content)
    refine ⟨ht₁.fills.trans hfills, hputs.root.trans ht₁.root, fun m ms hm => ?_⟩
    have hother : here ++ m :: ms ≠ here ++ n :: names := by
      intro heq
      rw [List.append_cancel_left_eq, List.cons.injEq] at heq
      exact hm (heq.1 ▸ hn)
    rw [hputs.entryAt_of_ne hother, ht₁.same m ms hm]

namespace Withstands

variable {P : FileTree → Prop} {first : Name → Prop} {n : Name}

section

variable (h : Withstands P dir here first) (hpath : dir.IsInto path (n :: names)) (hn : first n)

include h hpath hn

/-- Making the directory above a path into the directory keeps it. -/
theorem makeParent : Keeps P (makeParent path) := by
  unfold Export.makeParent
  cases hparent : path.parent with
  | none => exact .pure ()
  | some parent => exact keeps_alter fun t ht => h.paves ht hn hpath hparent

/-- Writing a file under such a path keeps it. -/
theorem writeFile (text : Text) : Keeps P (writeFile path text) :=
  keeps_change fun _ _ ht hwrite => h.puts ht hn ((h.settled ht).write_into hpath hwrite)

/-- Copying contents to such a path keeps it. -/
theorem copyContents (source : Path) : Keeps P (copyContents source path) := by
  refine keeps_change fun t t' ht hcopy => ?_
  obtain ⟨there, content, -, hputs⟩ := (h.settled ht).copy_into hpath hcopy
  exact h.puts ht hn hputs

/-- So does copying a file there. -/
theorem copyFile (source : Path) : Keeps P (copyFile source path) :=
  (h.makeParent hpath hn).bind fun _ => h.copyContents hpath hn source

end

end Withstands

/-! ## Interfaces -/

/-- An interface that was found is exported in these steps, one after the other. -/
theorem exportInterface_eq (workspace : Path) (c : Config) (table : Import.Table) {ns : List Text}
    (hns : ∀ n ∈ ns, IsNormal n) {n : Text} (hlast : ns.getLast? = some n) :
    exportInterface workspace c table (interfacePath c ns) = (do
      let source ← readSource (workspace.join (interfacePath c ns))
      makeParent (workspace.join (contractPath c ns))
      writeFile (workspace.join (contractPath c ns)) (relocatedSource c table ns source).text
      requireArtifact (Path.stemOf n) (artifactPath workspace c n (Path.stemOf n))
      copyFile (artifactPath workspace c n (Path.stemOf n)) (abiPath workspace c (Path.stemOf n))
      return reportOf c ns (Path.stemOf n) (relocatedSource c table ns source)) := by
  rw [exportInterface, interfaceScript_eq workspace c table hns hlast]
  simp only [Script.alone_bind, Script.alone_once, copyFile, bind_assoc]
  rfl

section

variable {P : FileTree → Prop} {first : Name → Prop} {workspace : Path} {c : Config}

/-- Reading a source keeps any condition. -/
theorem keeps_readSource (path : Path) : Keeps P (readSource path) := by
  refine keeps_inspect fun t e he => ?_
  obtain ⟨fault, rfl⟩ := eq_of_mapError_eq_error he
  exact not_isRefusal_access _ _ _

/-- So does looking for a compiled form. -/
theorem keeps_requireArtifact (name : Text) (artifact : Path) :
    Keeps P (requireArtifact name artifact) := by
  refine keeps_inspect fun t e he => ?_
  split at he
  · cases he
  · cases he
    rintro ⟨x, w, heq⟩
    cases heq

/-- Each step of the export of an interface that was found keeps what withstands changes in
`contracts` and `abi`. -/
theorem Withstands.interfaceScript (h : Withstands P (workspace.join c.exportDir) here first)
    (habs : workspace.isAbsolute = true) (hcontracts : first (Utf8.encode "contracts"))
    (habi : first (Utf8.encode "abi")) (table : Import.Table) {ns : List Text}
    (hns : ∀ n ∈ ns, IsNormal n) :
    (interfaceScript workspace c table (interfacePath c ns)).Keeps (fun s => P s.tree)
      fun e => ¬ e.IsRefusal := by
  unfold Export.interfaceScript
  dsimp only
  rw [interfacePath, relative_of_names c hns]
  have hcontract := isInto_contract habs c hns
  refine (Script.Keeps.once (keeps_readSource _)).bind fun source => ?_
  refine (Script.Keeps.once (h.makeParent hcontract hcontracts)).bind fun _ => ?_
  refine (Script.Keeps.once (h.writeFile hcontract hcontracts _)).bind fun _ => ?_
  split
  · rename_i name hname
    have hinto := isInto_abi habs c (isNormal_compiled hname)
    refine (Script.Keeps.once (keeps_requireArtifact _ _)).bind fun _ => ?_
    refine (Script.Keeps.once (h.makeParent hinto habi)).bind fun _ => ?_
    exact (Script.Keeps.once (h.copyContents hinto habi _)).bind fun _ => .done _
  · refine .fails ?_
    rintro ⟨x, w, heq⟩
    cases heq

end

/-! ## Nothing but the tree -/

/-- The second session is the first one but for its tree. -/
def OnlyTree (s s' : Session) : Prop := s' = { s with tree := s'.tree }

/-- A part of an export that changes nothing but the tree, whatever comes of it. -/
def IsTreeOnly {α : Type} (act : Action α) : Prop := ∀ s, OnlyTree s (outcome act s).2

namespace IsTreeOnly

theorem inspect {α : Type} (f : FileTree → Except Failure α) :
    IsTreeOnly (Export.inspect f) := by
  intro s
  rw [outcome_inspect]
  rfl

theorem alter (act : FileTree.Action Unit) (wrap : Fault → Failure) :
    IsTreeOnly (Export.alter act wrap) := by
  intro s
  rw [outcome_alter]
  rfl

theorem makeParent (path : Path) : IsTreeOnly (Export.makeParent path) := by
  unfold Export.makeParent
  split
  · apply alter
  · exact fun _ => rfl

/-- As a step of a script it keeps all but the tree. -/
theorem once {α : Type} {act : Action α} (h : IsTreeOnly act) (s : Session) :
    (Script.once act).Keeps (OnlyTree s) fun _ => True := by
  refine .once fun s₁ hs₁ => ?_
  have hend : OnlyTree s (outcome act s₁).2 := by
    rw [OnlyTree, h s₁, hs₁]
  cases hrun : outcome act s₁ with
  | mk result s₂ =>
    rw [hrun] at hend
    cases result with
    | ok a => exact hend
    | error e => exact ⟨hend, trivial⟩

end IsTreeOnly

/-- Exporting interfaces changes nothing but the tree, whatever the turns. -/
theorem onlyTree_sideBySide (workspace : Path) (c : Config) (table : Import.Table)
    (turns : List Nat) (files : List Path) :
    IsTreeOnly (sideBySide turns (files.map (interfaceScript workspace c table))) := by
  intro s
  have hscript : ∀ file ∈ files,
      (interfaceScript workspace c table file).Keeps (OnlyTree s) fun _ => True := by
    intro file _
    unfold interfaceScript
    dsimp only
    refine ((IsTreeOnly.inspect _).once s).bind fun source => ?_
    refine ((IsTreeOnly.makeParent _).once s).bind fun _ => ?_
    refine ((IsTreeOnly.alter _ _).once s).bind fun _ => ?_
    split
    · refine ((IsTreeOnly.inspect _).once s).bind fun _ => ?_
      refine ((IsTreeOnly.makeParent _).once s).bind fun _ => ?_
      exact ((IsTreeOnly.alter _ _).once s).bind fun _ => .done _
    · exact .fails trivial
  have hend := Script.Keeps.sideBySide hscript turns s rfl
  split at hend
  · rename_i hrun
    rw [hrun]
    exact hend
  · rename_i hrun
    rw [hrun]
    exact hend.1

section

variable {P : FileTree → Prop} {first : Name → Prop} {workspace : Path} {c : Config}

/-! ## The rest of the package -/

/-- Copying a file to a name in the export directory keeps what withstands changes there. -/
theorem Withstands.copyFront (h : Withstands P dir here first) (habs : dir.isAbsolute = true)
    {name : Text} (hname : IsNormal name) (hfirst : first (Utf8.encode name)) (source : Path) :
    Keeps P (Export.copyFile source (dir.join name)) :=
  h.copyFile (Path.isInto_name habs hname) hfirst source

end

/-- Reading the remappings leaves the tree alone. -/
theorem keeps_loadRemappings {P : FileTree → Prop} (p : Path) : Keeps P (loadRemappings p) := by
  unfold loadRemappings
  refine (keeps_inspect ?_).bind fun text => ?_
  · rintro t e he ⟨x, w, rfl⟩
    obtain ⟨fault, hfault⟩ := eq_of_mapError_eq_error he
    cases hfault
  · refine Keeps.bind (fun s hs => hs) fun _ => .pure _

/-- No failure of listing the interfaces refuses the export directory. -/
theorem not_isRefusal_of_findInterfaces {t : FileTree} {workspace interfacesDir : Path}
    {pattern : Text} {e : Failure}
    (h : findInterfaces t workspace interfacesDir pattern = .error e) : ¬ e.IsRefusal := by
  rintro ⟨x, w, rfl⟩
  unfold findInterfaces at h
  cases htokens : Glob.tokens pattern with
  | error fault =>
    rw [htokens] at h
    cases h
  | ok tokens =>
    rw [htokens] at h
    change filesWhere t workspace interfacesDir (fun p => Glob.isMatch tokens (Utf8.encode p))
      = _ at h
    unfold filesWhere at h
    dsimp only at h
    cases hkept : (t.files (workspace.join interfacesDir)).mapM
        (keepFile (workspace.join interfacesDir) interfacesDir
          fun p => Glob.isMatch tokens (Utf8.encode p)) with
    | ok kept =>
      rw [hkept] at h
      cases h
    | error fault =>
      rw [hkept] at h
      cases h
      obtain ⟨found, -, hfound⟩ := exists_of_mapM_eq_error hkept
      unfold keepFile at hfound
      -- each of its failures names its own cause
      repeat' split at hfound
      all_goals cases hfound

/-- No failure to read the project's manifest refuses the export directory. -/
theorem not_isRefusal_of_load {t : FileTree} {p : Path} {e : Failure}
    (h : ProjectManifest.load t p = .error e) : ¬ e.IsRefusal := by
  rintro ⟨x, w, rfl⟩
  unfold ProjectManifest.load at h
  cases htext : t.readText p with
  | error fault =>
    rw [htext] at h
    cases h
  | ok text =>
    rw [htext] at h
    obtain ⟨problem, hproblem⟩ := eq_of_mapError_eq_error h
    cases hproblem

theorem keeps_report {P : FileTree → Prop} (line : Text) : Keeps P (report line) := fun _ hs => hs

section

variable {P : FileTree → Prop} {first : Name → Prop} {workspace : Path} {c : Config}

/-- Manifest, readme and license keep what withstands changes under their names. -/
theorem Withstands.writeFront (h : Withstands P dir here first) (habs : dir.isAbsolute = true)
    (hmanifest : first (Utf8.encode "package.json")) (hreadme : first (Utf8.encode "README.md"))
    (hlicense : first (Utf8.encode "LICENSE")) : Keeps P (writeFront workspace dir c) := by
  refine (keeps_inspect fun _ _ => not_isRefusal_of_load).bind fun project => ?_
  refine (h.writeFile (Path.isInto_name habs (by decide)) hmanifest _).bind fun _ => ?_
  exact (h.copyFront habs (by decide) hreadme _).bind fun _ =>
    h.copyFront habs (by decide) hlicense _

/-- Filling a package with the interfaces that are found keeps what withstands changes in
`contracts` and `abi`, whatever the turns. -/
theorem Withstands.fillPackage (h : Withstands P (workspace.join c.exportDir) here first)
    (habs : workspace.isAbsolute = true) (hcontracts : first (Utf8.encode "contracts"))
    (habi : first (Utf8.encode "abi")) (table : Import.Table) (turns : List Nat) :
    Keeps P (fillPackage workspace c table turns) := by
  have hfind := @ensures_inspect _ P (fun e t' => P t' ∧ ¬ e.IsRefusal)
    (findInterfaces · workspace c.interfacesDir c.interfacesGlob)
    fun t' e ht' he => ⟨ht', not_isRefusal_of_findInterfaces he⟩
  refine Ensures.bind hfind fun files => ?_
  rintro s ⟨hs, hfound⟩
  refine Keeps.bind (Script.Keeps.sideBySide (fun file hfile => ?_) turns)
    (fun interfaces => (keeps_report _).bind fun _ => .pure interfaces) s hs
  obtain ⟨ns, hns, rfl⟩ :=
    exists_normal_of_mem_findInterfaces (h.settled hs).proper hfound hfile
  exact h.interfaceScript habs hcontracts habi table hns

/-- So does bringing them into a package that has its front. -/
theorem Withstands.packInterfaces (h : Withstands P (workspace.join c.exportDir) here first)
    (habs : workspace.isAbsolute = true) (hcontracts : first (Utf8.encode "contracts"))
    (habi : first (Utf8.encode "abi")) (turns : List Nat) :
    Keeps P (packInterfaces workspace c turns) :=
  (keeps_loadRemappings _).bind fun table => h.fillPackage habs hcontracts habi table turns

end

/-! ## Programs -/

section

variable {P : FileTree → Prop}

/-- Calling a program leaves the tree alone. -/
theorem keeps_call (programs : Programs) (r : Runner) (q : Request) :
    Keeps P (call programs r q) := by
  intro s hs
  rw [call, outcome_bind, outcome_get]
  dsimp only
  rw [outcome_bind, outcome_set]
  dsimp only
  cases r.request programs.execute s.calls q with
  | ok output => exact hs
  | error fault =>
    refine ⟨hs, ?_⟩
    rintro ⟨x, w, heq⟩
    cases heq

/-- No failure to find a package manager refuses the export directory. -/
theorem not_isRefusal_of_runnerFor {programs : Programs} {t : FileTree} {workspace : Path}
    {c : Config} {e : Failure} (h : runnerFor programs t workspace c = .error e) :
    ¬ e.IsRefusal := by
  rintro ⟨x, w, rfl⟩
  unfold runnerFor at h
  repeat' split at h
  all_goals cases h

/-- What is left to programs leaves the tree alone. -/
theorem keeps_finish (programs : Programs) (workspace : Path) (a : Arguments) (c : Config) :
    Keeps P (finish programs workspace a c) := by
  have hinstall : ∀ r : Runner,
      Keeps P (install programs r (workspace.join c.exportDir)) := fun r =>
    (keeps_report _).bind fun _ => keeps_call programs r _
  have hgenerate : ∀ r : Runner, Keeps P (c.targets.forM (generate programs r c)) :=
    fun r => keeps_forM fun target _ =>
      (keeps_report _).bind fun _ => keeps_call programs r _
  unfold finish
  split
  · refine (keeps_inspect fun _ _ => not_isRefusal_of_runnerFor).bind fun r => ?_
    dsimp only
    split
    · refine (hgenerate r).bind fun _ => ?_
      split
      · exact hinstall r
      · exact .pure ()
    · split
      · exact hinstall r
      · exact .pure ()
  · exact .pure ()

end

end InterfacePackage.Export
