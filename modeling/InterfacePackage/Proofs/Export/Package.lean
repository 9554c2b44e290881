import InterfacePackage.Proofs.Export.Mirror

/-!
# A complete package

In a tree without links a successful export leaves exactly the package in its directory: the front,
and for each interface that was found its relocated source and the compiled form of its name. Main
statement: `run_mirrors`.
-/

namespace InterfacePackage.Export

open FileTree

variable {found t : FileTree} {s s' : Session} {workspace : Path} {c : Config}
  {table : Import.Table} {here root : Place} {interfaces : List (List Text)}
  {results : List ExportedInterface}

/-! ## What a complete package is -/

/-- The names of the regular files in a package of interfaces. -/
inductive IsPart (interfaces : List (List Text)) : List Name → Prop where
  | front {n : Name} (hn : n ∈ frontNames) : IsPart interfaces [n]
  | contract {ns : List Text} (hns : ns ∈ interfaces) :
      IsPart interfaces (Utf8.encode "contracts" :: ns.map Utf8.encode)
  | abi {ns : List Text} {n : Text} (hns : ns ∈ interfaces) (hn : ns.getLast? = some n) :
      IsPart interfaces [Utf8.encode "abi", Utf8.encode (Path.stemOf n ++ ".json")]

/-- The export directory holds the package of these interfaces and no other files, and the results
report it. All is as the project now has it. -/
structure Mirrors (t : FileTree) (workspace : Path) (c : Config) (here : Place)
    (interfaces : List (List Text)) (results : List ExportedInterface) : Prop
    extends HasFront t workspace c here where
  directory : t.lookup (workspace.join c.exportDir) = .ok (here, .directory)
  files : ∀ q, isBelow here q = true →
    (IsFile (t.entryAt q) ↔ ∃ names, IsPart interfaces names ∧ q = here ++ names)
  exported : ∃ text, t.readText (workspace.join c.remappings) = .ok text ∧
    List.Forall₂ (IsExported t workspace c (.ofText text) here) interfaces results
  compiled : ∀ ns ∈ interfaces, IsCompiled t workspace c here interfaces ns

/-! ## All interfaces -/

/-- A path that ends in a slash finds directories only. -/
theorem eq_directory_of_lookup_slash (ht : t.IsSound) {p : Path} {q : Place} {e : Entry}
    (hslash : p.getLast? = some '/') (hlookup : t.lookup p = .ok (q, e)) : e = .directory := by
  obtain ⟨front, rfl⟩ := List.getLast?_eq_some_iff.1 hslash
  have hsteps : Step.ofPath (front ++ ['/']) = Step.ofPath front ++ [.stay] := by
    rw [Step.ofPath, Text.split_append, List.map_append]
    rfl
  obtain ⟨hreaches, hentry⟩ := reaches_of_lookupFrom ht (lookup_eq_ok_iff.1 hlookup).2
  rw [hsteps] at hreaches
  obtain ⟨middle, hfront, hmiddle⟩ := hreaches.split (by simp)
  obtain ⟨left, hback⟩ := hfront.append hmiddle
  -- the last step stays, which only a directory allows
  cases (hback _ _).1 hreaches with
  | stay _ hend =>
    cases hend
    rw [hmiddle] at hentry
    exact (Option.some.inj hentry).symm

/-- A path seen from another one that ends in a slash does so itself. -/
theorem getLast?_join {a b : Path} (hb : b.getLast? = some '/') :
    (a.join b).getLast? = some '/' := by
  rw [Path.join]
  split
  · exact hb
  · obtain ⟨front, rfl⟩ := List.getLast?_eq_some_iff.1 hb
    split
    · exact List.getLast?_eq_some_iff.2 ⟨a ++ front, (List.append_assoc _ _ _).symm⟩
    · exact List.getLast?_eq_some_iff.2 ⟨a ++ '/' :: front,
        (List.append_assoc a ('/' :: front) ['/']).symm⟩

/-- Going on by nothing ends a path in a slash. -/
theorem getLast?_join_nil {a : Path} (ha : a ≠ []) : (a.join []).getLast? = some '/' := by
  rw [Path.join, if_neg (by decide)]
  split
  · rename_i h
    rw [List.append_nil]
    exact h.resolve_left ha
  · exact List.getLast?_concat

/-- No source is read under the path of the directory of the interfaces itself: without further
names that path ends in a slash. -/
theorem readText_interfacePath_nil (ht : t.IsSound) (hworkspace : workspace ≠ []) {text : Text} :
    t.readText (workspace.join (interfacePath c [])) ≠ .ok text := by
  intro hread
  obtain ⟨q, content, hlookup, -⟩ := readText_eq_ok_iff.1 hread
  have hslash : (workspace.join (interfacePath c [])).getLast? = some '/' := by
    by_cases hdir : c.interfacesDir = []
    · have hself : interfacePath c [] = [] := by rw [interfacePath, hdir]; rfl
      rw [hself]
      exact getLast?_join_nil hworkspace
    · exact getLast?_join (getLast?_join_nil hdir)
  cases eq_directory_of_lookup_slash ht hslash hlookup

/-- An interface is reported under the stem of its file name. -/
def IsReported (c : Config) (ns : List Text) (x : ExportedInterface) : Prop :=
  ∃ n relocated, ns.getLast? = some n ∧ x = reportOf c ns (Path.stemOf n) relocated

/-- What comes of an interface that is exported is such a report. -/
theorem meets_isReported (table : Import.Table) {ns : List Text}
    (habs : workspace.isAbsolute = true) (h : Settled t (workspace.join c.exportDir) here)
    (hnormal : ∀ n ∈ ns, IsNormal n) (hs : Fills t here s.tree) :
    (interfaceScript workspace c table (interfacePath c ns)).Meets (fun s => Fills t here s.tree)
      Anyhow (fun x _ => IsReported c ns x) (fun e => ¬ e.IsRefusal) s := by
  have hfills := withstands_fills h
  by_cases hnil : ns = []
  · -- there is no result without a source
    subst hnil
    have hread : (Script.once (readSource (workspace.join (interfacePath c [])))).Meets
        (fun s => Fills t here s.tree) Anyhow (fun _ _ => False) (fun e => ¬ e.IsRefusal) s := by
      refine .once fun s₁ hs₁ _ => ?_
      have hkeeps := @keeps_readSource (Fills t here) (workspace.join (interfacePath c [])) s₁ hs₁
      cases hrun : outcome (readSource (workspace.join (interfacePath c []))) s₁ with
      | mk result s₂ =>
        rw [hrun] at hkeeps
        cases result with
        | ok text =>
          obtain ⟨htext, -⟩ := outcome_inspect_eq_ok.1 hrun
          exact absurd (eq_ok_of_mapError_eq_ok htext)
            (readText_interfacePath_nil hs₁.proper.sound (Path.ne_nil_of_isAbsolute habs))
        | error e => exact ⟨hkeeps.1, trivial, hkeeps.2⟩
    exact hread.bind hs fun _ _ _ _ hfalse => hfalse.elim
  · obtain ⟨n, hlast⟩ := Option.ne_none_iff_exists'.1 (mt List.getLast?_eq_none_iff.1 hnil)
    have hcontract := isInto_contract habs c hnormal
    have hname := interfaceName_interfacePath c hnormal hlast
    have habi := isInto_abi habs c (isNormal_compiled hname)
    rw [interfaceScript_eq workspace c table hnormal hlast]
    refine (Script.Keeps.once (keeps_readSource _) s hs).bind hs fun source s hs _ _ => ?_
    refine (Script.Keeps.once (hfills.makeParent hcontract trivial) s hs).bind hs
      fun _ s hs _ _ => ?_
    refine (Script.Keeps.once (hfills.writeFile hcontract trivial _) s hs).bind hs
      fun _ s hs _ _ => ?_
    refine (Script.Keeps.once (keeps_requireArtifact _ _) s hs).bind hs fun _ s hs _ _ => ?_
    refine (Script.Keeps.once (hfills.makeParent habi trivial) s hs).bind hs fun _ s hs _ _ => ?_
    refine (Script.Keeps.once (hfills.copyContents habi trivial _) s hs).bind hs
      fun _ s hs _ _ => ?_
    exact fun _ _ _ => ⟨n, _, hlast, rfl⟩

/-- Interfaces exported side by side, each told by its names below their directory. -/
abbrev exportByTurns (turns : List Nat) (workspace : Path) (c : Config) (table : Import.Table)
    (interfaces : List (List Text)) : Action (List ExportedInterface) :=
  sideBySide turns (interfaces.map fun ns =>
    interfaceScript workspace c table (interfacePath c ns))

/-- Interfaces that are exported are reported one by one. -/
theorem exportByTurns_reports (habs : workspace.isAbsolute = true)
    (h : Settled s.tree (workspace.join c.exportDir) here)
    (hnormal : ∀ ns ∈ interfaces, ∀ n ∈ ns, IsNormal n) {turns : List Nat}
    (hrun : outcome (exportByTurns turns workspace c table interfaces) s = (.ok results, s')) :
    List.Forall₂ (IsReported c) interfaces results := by
  have hs : Fills s.tree here s.tree := .refl h.proper here
  have hyields := sideBySide_yields hs
    (fun ns hns => meets_isReported table habs h (hnormal ns hns) hs) turns
  have hresult := hyields.result
  rw [hrun] at hresult
  exact hresult

/-- And none of them is the directory itself. -/
theorem nil_notMem_of_reported (h : List.Forall₂ (IsReported c) interfaces results) :
    [] ∉ interfaces := by
  intro hmem
  obtain ⟨x, -, n, relocated, hlast, -⟩ := exists_of_forall₂ h hmem
  cases hlast

/-- All interfaces exported side by side: the package has been filled, and each of them is done. -/
theorem exportByTurns_fills (hready : IsReady s.tree workspace c here root interfaces)
    (hnames : [] ∉ interfaces) {turns : List Nat}
    (hrun : outcome (exportByTurns turns workspace c table interfaces) s = (.ok results, s')) :
    Progress s.tree workspace c table here interfaces s'.tree ∧
      List.Forall₂ (IsPlaced s'.tree workspace c table here) interfaces results := by
  have hscript : ∀ ns ∈ interfaces, Advances s.tree workspace c table here interfaces
      (interfaceScript workspace c table (interfacePath c ns)) s
      fun x t => IsPlaced t workspace c table here ns x := by
    intro ns hns
    obtain ⟨n, hlast⟩ := exists_getLast? hnames hns
    exact advances_interfaceScript hready hns hlast hready.progress
  obtain ⟨hprogress, -, hresult⟩ := sideBySide_yields hready.progress hscript turns
  rw [hrun] at hprogress hresult
  exact ⟨hprogress, hresult⟩

/-! ## The whole package -/

/-- An interface that is done has been exported, since whatever contract is there is its own. -/
theorem IsPlaced.isExported {ns : List Text} {x : ExportedInterface}
    (h : IsPlaced t workspace c table here ns x)
    (hprogress : Progress found workspace c table here interfaces t) (hns : ns ∈ interfaces) :
    IsExported t workspace c table here ns x := by
  obtain ⟨source, n, hread, hlast, hx⟩ := h.reported
  obtain ⟨content, hlookup⟩ := h.contract
  obtain ⟨-, hentry, -⟩ := denotes_of_lookup hprogress.proper.sound hlookup
  obtain ⟨source', hread', hcontent⟩ := hprogress.contract ns hns content hentry
  rw [hread] at hread'
  cases hread'
  exact ⟨source, n, hread, hlast, hcontent ▸ hentry, hx⟩

/-- When all interfaces are done the package is complete. -/
theorem Progress.mirrors {text : Text}
    (h : Progress found workspace c (.ofText text) here interfaces t)
    (hplaced : List.Forall₂ (IsPlaced t workspace c (.ofText text) here) interfaces results)
    (hready : IsReady found workspace c here root interfaces)
    (hfront : HasFront found workspace c here)
    (hdirectory : found.lookup (workspace.join c.exportDir) = .ok (here, .directory))
    (htext : found.readText (workspace.join c.remappings) = .ok text) :
    Mirrors t workspace c here interfaces results := by
  have hproper := hready.settled.proper
  have hfront' := hfront.grows h.grows hproper hready.linkless
  have hexported : List.Forall₂ (IsExported t workspace c (.ofText text) here) interfaces results :=
    ((List.forall₂_and_left _ _).2 ⟨fun _ h => h, hplaced⟩).imp fun _ _ hx => hx.2.isExported h hx.1
  have hcompiled : ∀ ns ∈ interfaces, ∀ n, ns.getLast? = some n →
      IsFile (t.entryAt (abiPlace here (Path.stemOf n))) := by
    intro ns hns n hlast
    obtain ⟨x, -, hx⟩ := exists_of_forall₂ hplaced hns
    obtain ⟨content, hlookup⟩ := hx.compiled n hlast
    exact ⟨content, (denotes_of_lookup h.proper.sound hlookup).2.1⟩
  refine ⟨hfront', h.grows.lookup hproper hready.linkless hdirectory,
    fun q hq => ⟨fun hfile => ?_, ?_⟩,
    ⟨text, h.grows.readText hproper hready.linkless htext, hexported⟩, fun ns hns => ?_⟩
  -- a file of the package was there with the front, or an interface has brought it
  · cases hfound : found.entryAt q with
    | some e =>
      obtain ⟨n, hn, rfl⟩ := hready.front q hq (by simp [hfound])
      exact ⟨[n], .front hn, rfl⟩
    | none =>
      obtain ⟨content, hcontent⟩ := hfile
      obtain ⟨target, htarget, rfl | ⟨-, hmade⟩⟩ := h.new q hfound (by simp [hcontent])
      · cases htarget with
        | contract hns => exact ⟨_, .contract hns, rfl⟩
        | abi hns hlast => exact ⟨_, .abi hns hlast, rfl⟩
      · rw [hcontent] at hmade
        cases hmade
  -- each part has been written, and nothing has taken it away
  · rintro ⟨names, hpart, rfl⟩
    cases hpart with
    | front hn => exact hfront'.isFile hn
    | contract hns =>
      obtain ⟨x, -, source, n, -, -, hcontract, -⟩ := exists_of_forall₂ hexported hns
      exact ⟨_, hcontract⟩
    | abi hns hlast => exact hcompiled _ hns _ hlast
  · obtain ⟨x, -, source, n, -, hlast, -, -⟩ := exists_of_forall₂ hexported hns
    exact h.compiled ns hns n hlast (hcompiled ns hns n hlast)

/-! ## A successful export -/

/-- An export up to the moment when it looks for the interfaces; the remappings. -/
def openPackage (workspace : Path) (c : Config) : Action Import.Table := do
  prepare workspace (workspace.join c.exportDir)
  writeFront workspace (workspace.join c.exportDir) c
  loadRemappings (workspace.join c.remappings)

/-- A package is filled with what comes of the interfaces that are found. -/
theorem fillPackage_eq_ok {turns : List Nat}
    (hrun : outcome (fillPackage workspace c table turns) s = (.ok results, s')) :
    ∃ files s₁, findInterfaces s.tree workspace c.interfacesDir c.interfacesGlob = .ok files ∧
      outcome (sideBySide turns (files.map (interfaceScript workspace c table))) s
        = (.ok results, s₁) ∧ s'.tree = s₁.tree := by
  obtain ⟨files, s₁, hfind, hrest⟩ := outcome_bind_eq_ok.1 hrun
  obtain ⟨hfind, rfl⟩ := outcome_inspect_eq_ok.1 hfind
  obtain ⟨results', s₂, hexport, hrest⟩ := outcome_bind_eq_ok.1 hrest
  obtain ⟨_, s₃, hreport, hreturn⟩ := outcome_bind_eq_ok.1 hrest
  cases hreport
  cases hreturn
  exact ⟨files, s₂, hfind, hexport, rfl⟩

/-- A package is assembled in these two parts. -/
theorem assemble_eq (workspace : Path) (c : Config) (turns : List Nat) :
    assemble workspace c turns
      = openPackage workspace c >>= fun table => fillPackage workspace c table turns := by
  rw [assemble, openPackage, pack]
  simp only [bind_assoc]
  rfl

/-- The remappings are those of the file. -/
theorem loadRemappings_ok {p : Path} (hrun : outcome (loadRemappings p) s = (.ok table, s')) :
    s'.tree = s.tree ∧ ∃ text, s.tree.readText p = .ok text ∧ table = .ofText text := by
  unfold loadRemappings at hrun
  obtain ⟨text, s₁, hread, hrest⟩ := outcome_bind_eq_ok.1 hrun
  obtain ⟨hread, rfl⟩ := outcome_inspect_eq_ok.1 hread
  obtain ⟨_, s₂, hwarn, hreturn⟩ := outcome_bind_eq_ok.1 hrest
  cases hwarn
  cases hreturn
  exact ⟨rfl, text, eq_ok_of_mapError_eq_ok hread, rfl⟩

/-- When a package has been opened its front is all there is in it. -/
theorem openPackage_ok (ht : s.tree.IsProper) (hlinks : s.tree.IsLinkless)
    (habs : workspace.isAbsolute = true) (hup : .up ∉ (workspace.join c.exportDir).route)
    (hrun : outcome (openPackage workspace c) s = (.ok table, s')) :
    ∃ here text, IsOpened s'.tree workspace c here ∧ HasFront s'.tree workspace c here ∧
      s'.tree.lookup (workspace.join c.exportDir) = .ok (here, .directory) ∧
      s'.tree.readText (workspace.join c.remappings) = .ok text ∧ table = .ofText text := by
  have hdirAbs := Path.isAbsolute_join_of_isAbsolute habs c.exportDir
  obtain ⟨_, s₁, hprepare, hrest⟩ := outcome_bind_eq_ok.1 hrun
  obtain ⟨_, s₂, hwrite, hload⟩ := outcome_bind_eq_ok.1 hrest
  obtain ⟨here, hprep⟩ := (prepare_ensures ht hdirAbs hup).ok rfl hprepare
  have hlinks₁ := hprep.isLinkless hlinks
  obtain ⟨hsettled, hgrows, hfront, honly⟩ := writeFront_ok hprep hlinks₁
    (fun hdenotes q hq => prepare_empties ht hlinks hdirAbs hup hprepare hprep hdenotes hq) hdirAbs
    hwrite
  obtain ⟨htree, text, htext, htable⟩ := loadRemappings_ok hload
  have hlookup := hgrows.lookup hprep.proper hlinks₁ (hprep.lookup ht hsettled.denotes)
  rw [htree]
  exact ⟨here, text,
    ⟨habs, hgrows.fills.isLinkless hlinks₁, hsettled.fills hgrows.fills, honly⟩, hfront, hlookup,
    htext, htable⟩

/-- When a package has been filled it is complete. -/
theorem fillPackage_ok {text : Text} {turns : List Nat}
    (hopened : IsOpened s.tree workspace c here) (hfront : HasFront s.tree workspace c here)
    (hdirectory : s.tree.lookup (workspace.join c.exportDir) = .ok (here, .directory))
    (htext : s.tree.readText (workspace.join c.remappings) = .ok text)
    (hrun : outcome (fillPackage workspace c (.ofText text) turns) s = (.ok results, s')) :
    ∃ root e interfaces, s.tree.lookup (workspace.join c.interfacesDir) = .ok (root, e) ∧
      IsListing s.tree c root interfaces ∧ Mirrors s'.tree workspace c here interfaces results := by
  have ht := hopened.settled.proper
  obtain ⟨files, s₁, hfind, hexport, htree⟩ := fillPackage_eq_ok hrun
  obtain ⟨root, e, interfaces, hlookup, rfl, hnormal, hlisting, -⟩ :=
    findInterfaces_ok ht hopened.linkless hfind
  rw [List.map_map] at hexport
  have hnil := nil_notMem_of_reported
    (exportByTurns_reports hopened.workspace_isAbsolute hopened.settled hnormal hexport)
  have hready : IsReady s.tree workspace c here root interfaces :=
    ⟨hopened, (denotes_of_lookup ht.sound hlookup).1, hnormal, hlisting hnil⟩
  obtain ⟨hprogress, hplaced⟩ := exportByTurns_fills hready hnil hexport
  rw [htree]
  exact ⟨root, e, interfaces, hlookup, hlisting hnil,
    hprogress.mirrors hplaced hready hfront hdirectory htext⟩

/-- An assembled package is complete. -/
theorem assemble_mirrors {turns : List Nat} (ht : s.tree.IsProper) (hlinks : s.tree.IsLinkless)
    (habs : workspace.isAbsolute = true) (hup : .up ∉ (workspace.join c.exportDir).route)
    (hrun : outcome (assemble workspace c turns) s = (.ok results, s')) :
    ∃ table found here root e interfaces,
      outcome (openPackage workspace c) s = (.ok table, found) ∧
      found.tree.lookup (workspace.join c.interfacesDir) = .ok (root, e) ∧
      IsListing found.tree c root interfaces ∧
      Mirrors s'.tree workspace c here interfaces results := by
  rw [assemble_eq] at hrun
  obtain ⟨table, found, hopen, hfill⟩ := outcome_bind_eq_ok.1 hrun
  obtain ⟨here, text, hopened, hfront, hdirectory, htext, rfl⟩ :=
    openPackage_ok ht hlinks habs hup hopen
  obtain ⟨root, e, interfaces, hsource, hlisting, hmirrors⟩ :=
    fillPackage_ok hopened hfront hdirectory htext hfill
  exact ⟨_, found, here, root, e, interfaces, hopen, hsource, hlisting, hmirrors⟩

/-- A successful export from a tree without links leaves exactly the package that mirrors the
project, by whatever turns the interfaces are exported. `found` is the session at the moment when it
looks for the interfaces. -/
theorem run_mirrors (programs : Programs) {current : Path} {a : Arguments} {turns : List Nat}
    (ht : t.IsProper) (hlinks : t.IsLinkless) (hcurrent : current.isAbsolute = true)
    (hcurrentUp : .up ∉ current.components) (hworkspaceUp : .up ∉ a.workspace.components)
    {summary : Summary} {s : Session}
    (hrun : outcome (run programs current a turns) { tree := t } = (.ok summary, s)) :
    ∃ c, Config.resolve t (current.join a.workspace) a = .ok c ∧
      (.up ∉ c.exportDir.components →
        ∃ table found here root e interfaces,
          outcome (openPackage (current.join a.workspace) c) { tree := t } = (.ok table, found) ∧
          found.tree.lookup ((current.join a.workspace).join c.interfacesDir) = .ok (root, e) ∧
          IsListing found.tree c root interfaces ∧
          Mirrors s.tree (current.join a.workspace) c here interfaces summary.interfaces) := by
  cases hresolve : Config.resolve t (current.join a.workspace) a with
  | error e =>
    rw [run_of_resolve_error programs current a turns (s := { tree := t }) hresolve] at hrun
    cases hrun
  | ok c =>
    refine ⟨c, rfl, fun hexportUp => ?_⟩
    have habs := Path.isAbsolute_join_of_isAbsolute hcurrent a.workspace
    have hup := up_notMem_route_join
      (up_notMem_route_join (up_notMem_route hcurrentUp) (up_notMem_route hworkspaceUp))
      (up_notMem_route hexportUp)
    rw [run_of_resolve_ok programs current a turns (s := { tree := t }) hresolve] at hrun
    obtain ⟨results, s₁, hassemble, hrest⟩ := outcome_bind_eq_ok.1 hrun
    obtain ⟨_, s₂, hfinish, hreturn⟩ := outcome_bind_eq_ok.1 hrest
    cases hreturn
    -- programs leave the tree alone
    have htree : s.tree = s₁.tree :=
      (@keeps_finish (fun t' => t' = s₁.tree) programs _ a c).ok rfl hfinish
    rw [htree]
    exact assemble_mirrors (s := { tree := t }) ht hlinks habs hup hassemble

/-- A compiled project in `/ws` with one interface, which imports a type of the project, and with
what is left of an earlier export. -/
def compiledProject : FileTree :=
  [(["ws"], Entry.directory),
    (["ws", "package.json"], .file (Utf8.encode "\x7b\"version\": \"1.0.0\"\x7d")),
    (["ws", "interfaces-readme.md"], .file (Utf8.encode "# Interfaces")),
    (["ws", "LICENSE"], .file (Utf8.encode "MIT")),
    (["ws", "remappings.txt"], .file (Utf8.encode "types/=solidity/types/")),
    (["ws", "solidity"], .directory),
    (["ws", "solidity", "interfaces"], .directory),
    (["ws", "solidity", "interfaces", "sub"], .directory),
    (["ws", "solidity", "interfaces", "sub", "IA.sol"],
      .file (Utf8.encode "import 'types/T.sol';")),
    (["ws", "out"], .directory),
    (["ws", "out", "IA.sol"], .directory),
    (["ws", "out", "IA.sol", "IA.json"], .file (Utf8.encode "[]")),
    (["ws", "npm"], .directory),
    (["ws", "npm", "stale.txt"], .file [])].foldl
    (fun t x => t.put (x.1.map fun n : String => Utf8.encode n.toList) x.2) ⟨∅, []⟩

/-- Nothing but an export, of the project that the command runs in. -/
def exportOnly : Arguments := { workspace := ['.'], skipCodegen := true, skipInstall := true }

/-- The compiled project with two more interfaces, one of them in a file of the name that the first
one has, but in another directory. -/
def twinProject : FileTree :=
  [(["ws", "solidity", "interfaces", "IA.sol"], Entry.file (Utf8.encode "import './IB.sol';")),
    (["ws", "solidity", "interfaces", "IB.sol"], .file (Utf8.encode "import 'types/T.sol';")),
    (["ws", "out", "IB.sol"], .directory),
    (["ws", "out", "IB.sol", "IB.json"], .file (Utf8.encode "[1]"))].foldl
    (fun t x => t.put (x.1.map fun n : String => Utf8.encode n.toList) x.2) compiledProject

/-- Turns by which the last interface begins first and all of them overtake one another. -/
def crossingTurns : List Nat := [2, 2, 0, 1, 0, 2, 1, 1, 0, 2, 2, 0]

/-- The package of that project mirrors it by these turns, with two imports rewritten. -/
theorem run_mirrors_twinProject :
    ∃ summary s c table found here root e interfaces,
      outcome (run noPrograms ['/', 'w', 's'] exportOnly crossingTurns) { tree := twinProject }
        = (.ok summary, s) ∧
      summary.interfaces.map (·.name) = ["IA".toList, "IB".toList, "IA".toList] ∧
      summary.rewrittenImports = 2 ∧
      outcome (openPackage (Path.join ['/', 'w', 's'] ['.']) c) { tree := twinProject }
        = (.ok table, found) ∧
      found.tree.lookup ((Path.join ['/', 'w', 's'] ['.']).join c.interfacesDir) = .ok (root, e) ∧
      IsListing found.tree c root interfaces ∧
      Mirrors s.tree (Path.join ['/', 'w', 's'] ['.']) c here interfaces summary.interfaces := by
  have hresolved : (match Config.resolve twinProject (Path.join ['/', 'w', 's'] ['.'])
      exportOnly with
    | .ok c => decide (.up ∉ c.exportDir.components)
    | .error _ => false) = true := by decide +kernel
  have hsummary : (match (outcome (run noPrograms ['/', 'w', 's'] exportOnly crossingTurns)
      { tree := twinProject }).1 with
    | .ok summary => decide (summary.interfaces.map (·.name)
        = ["IA".toList, "IB".toList, "IA".toList] ∧ summary.rewrittenImports = 2)
    | .error _ => false) = true := by
    simp only [run, assemble, pack, packInterfaces, fillPackage, findInterfaces, filesWhere_eq]
    decide +kernel
  cases hrun : outcome (run noPrograms ['/', 'w', 's'] exportOnly crossingTurns)
      { tree := twinProject } with
  | mk result s =>
    rw [hrun] at hsummary
    cases result with
    | error e => cases hsummary
    | ok summary =>
      obtain ⟨c, hc, hmirrors⟩ := run_mirrors noPrograms (t := twinProject) (by decide +kernel)
        (by decide +kernel) rfl (by decide) (by decide) hrun
      change Config.resolve twinProject (Path.join ['/', 'w', 's'] ['.']) exportOnly = .ok c at hc
      rw [hc] at hresolved
      obtain ⟨table, found, here, root, e, interfaces, hopen, hlookup, hlisting, hpackage⟩ :=
        hmirrors (of_decide_eq_true hresolved)
      obtain ⟨hreported, hcount⟩ := of_decide_eq_true hsummary
      exact ⟨summary, s, c, table, found, here, root, e, interfaces, rfl, hreported, hcount, hopen,
        hlookup, hlisting, hpackage⟩

end InterfacePackage.Export
