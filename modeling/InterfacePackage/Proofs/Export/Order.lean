import InterfacePackage.Proofs.Export.Package
import InterfacePackage.Proofs.FileTree.Part

/-!
# The order of the turns

Interfaces that do not come in each other's way are exported alike by any turns. Once one export has
succeeded, the package it has left is what every other one is on the way to: each of its steps finds
a part of that package, succeeds, and leaves a part of it. At the end nothing is missing. Main
statements: `fillPackage_any_order` and `run_any_order`.
-/

namespace InterfacePackage.Export

open FileTree

variable {found t u : FileTree} {s s' : Session} {workspace : Path} {c : Config}
  {table : Import.Table} {here root : Place} {interfaces : List (List Text)} {ns : List Text}
  {n : Text} {results : List ExportedInterface}

/-! ## Interfaces that do not come in each other's way -/

/-- No path climbs, what the compiler has put out is not in the package, and interfaces of one name
are in files of one name. -/
structure IsUndisputed (workspace : Path) (c : Config) (here : Place)
    (interfaces : List (List Text)) : Prop where
  exportDir : .up ∉ (workspace.join c.exportDir).route
  interfacesDir : .up ∉ (workspace.join c.interfacesDir).route
  outDir : .up ∉ (workspace.join c.outDir).route
  outside : ∀ ns ∈ interfaces, ∀ n, ns.getLast? = some n →
    ¬ isBelow here (artifactPath workspace c n (Path.stemOf n)).endpoint = true
  names : ∀ ns ∈ interfaces, ∀ ms ∈ interfaces, ∀ n m, ns.getLast? = some n →
    ms.getLast? = some m → Path.stemOf n = Path.stemOf m → n = m

/-- A path that goes on by names climbs no more than the one that it goes on from. -/
theorem up_notMem_of_isInto {dir path : Path} {names : List Name} (h : dir.IsInto path names)
    (hup : .up ∉ dir.route) : .up ∉ path.route := by
  rw [h.route, List.mem_append, not_or]
  refine ⟨hup, fun hmem => ?_⟩
  obtain ⟨n, -, hn⟩ := List.mem_map.1 hmem
  cases hn

/-! ## On the way to a package -/

/-- Some of the package is there. -/
structure IsOnWay (found : FileTree) (here : Place) (u t : FileTree) : Prop where
  grows : Grows found here t
  part : IsPartOf t u

/-- A script that only ever goes on towards a package, and does not fail. -/
abbrev Approaches {α : Type} (found : FileTree) (here : Place) (u : FileTree) (x : Script α)
    (s : Session) (post : α → FileTree → Prop) : Prop :=
  x.MeetsOnTrees (IsOnWay found here u) IsPartOf post (fun _ => False) s

section

variable (hready : IsReady found workspace c here root interfaces)
  (hclear : IsUndisputed workspace c here interfaces)
  (hu : Progress found workspace c table here interfaces u)

include hready hu

/-- Making the directory above a file of the package. -/
theorem approaches_makeParent {path : Path} {names : List Name} {content : Bytes}
    (hpath : (workspace.join c.exportDir).IsInto path names) (hnames : names ≠ [])
    (hup : .up ∉ (workspace.join c.exportDir).route)
    (hlookup : u.lookup path = .ok (here ++ names, .file content)) :
    Approaches found here u (.once (makeParent path)) s
      fun _ t => t.entryAt (here ++ names).dropLast = some .directory := by
  have hlevel := up_notMem_of_isInto hpath hup
  unfold makeParent
  cases hparent : path.parent with
  | none =>
    have hroute := Path.route_of_parent_eq_none hpath.absolute hparent
    rw [hpath.route, List.append_eq_nil_iff, List.map_eq_nil_iff] at hroute
    exact absurd hroute.2 hnames
  | some above =>
    refine .alter fun t ht _ => ?_
    have hlinks := hu.isLinkless hready
    have hsettled := hready.settled.fills ht.grows.fills
    obtain ⟨habsAbove, hupAbove, -⟩ := route_of_parent hpath.absolute hlevel hparent
    have hfound := lookup_of_parent hu.proper.sound hlinks hpath.absolute hlevel hparent hlookup
    obtain ⟨t', hrun, hpart, hentry⟩ := ht.part.makeDirectories hsettled.proper hu.proper.sound
      hlinks habsAbove hupAbove (Path.endsInName_of_parent hpath.absolute hparent hupAbove) hfound
    have hgrows := (hsettled.paves_parent hpath hnames hparent).grows
    rw [hrun] at hgrows ⊢
    exact ⟨⟨ht.grows.trans hgrows, hpart⟩, hgrows.old, fun t₁ _ hkept => hkept _ _ hentry⟩

/-- Putting a file of the package in its place. -/
theorem approaches_change {path : Path} {names : List Name} {content : Bytes}
    {f : FileTree → Except Fault FileTree} {wrap : Fault → Failure}
    (hpath : (workspace.join c.exportDir).IsInto path names) (hnames : names ≠ [])
    (hup : .up ∉ (workspace.join c.exportDir).route)
    (hlookup : u.lookup path = .ok (here ++ names, .file content))
    (hs : s.tree.entryAt (here ++ names).dropLast = some .directory)
    (hf : ∀ t, IsOnWay found here u t → t.entryAt (here ++ names).dropLast = some .directory →
      f t = .ok (t.put (here ++ names) (.file content))) :
    Approaches found here u (.once (alter (change f) wrap)) s
      fun _ t => t.entryAt (here ++ names) = some (.file content) := by
  refine .change fun t ht hkept => ?_
  have habove := hkept _ _ hs
  have hlinks := hu.isLinkless hready
  have hproper := ht.grows.fills.proper
  obtain ⟨-, hentry, -⟩ := denotes_of_lookup hu.proper.sound hlookup
  have hputs := ht.part.puts hproper.sound hlinks hu.proper.sound hpath.absolute
    (up_notMem_of_isInto hpath hup) hlookup habove
  have hgrows := hputs.grows hproper (isBelow_append here hnames) fun e he => by
    have hsame := ht.part _ _ he
    rw [hentry] at hsame
    exact (Option.some.inj hsame).symm
  rw [hf t ht habove]
  exact ⟨⟨ht.grows.trans hgrows, ht.part.put hentry hputs.ne_nil⟩, hgrows.old,
    fun t₁ _ hkept₁ => hkept₁ _ _ hputs.entryAt_self⟩

include hclear

/-- A source is there all the time, and it is read as in the package at the end. -/
theorem readText_of_isOnWay (hns : ns ∈ interfaces) {source : Text}
    (hread : u.readText (workspace.join (interfacePath c ns)) = .ok source)
    (ht : IsOnWay found here u t) :
    t.readText (workspace.join (interfacePath c ns)) = .ok source := by
  have hlinks := hu.isLinkless hready
  obtain ⟨p, content, hlookup, hdecode⟩ := readText_eq_ok_iff.1 hread
  obtain ⟨old, hold⟩ := hready.exists_source hu.proper hlinks hns hlookup
  have hthere : t.entryAt p ≠ none := by simp [ht.grows.old _ _ hold]
  have hinto := hready.isInto_source hns
  exact readText_eq_ok_iff.2 ⟨p, content, ht.part.lookup ht.grows.fills.proper.sound hlinks
    hu.proper.sound hinto.absolute (up_notMem_of_isInto hinto hclear.interfacesDir) hlookup hthere,
    hdecode⟩

/-- What the compiler has put out for an interface is there all the time, and it is what the package
has under the name of the interface at the end. -/
theorem lookup_artifact_of_isOnWay (hns : ns ∈ interfaces) (hlast : ns.getLast? = some n)
    {content : Bytes} (hfile : u.entryAt (abiPlace here (Path.stemOf n)) = some (.file content))
    (ht : IsOnWay found here u t) : ∃ there, there ≠ abiPlace here (Path.stemOf n) ∧
      t.lookup (artifactPath workspace c n (Path.stemOf n)) = .ok (there, .file content) := by
  obtain ⟨other, hother, k, m, bytes, hk, hm, hstem, habi, hread⟩ :=
    hu.compiled ns hns n hlast ⟨content, hfile⟩
  rw [hlast] at hk
  cases hk
  cases hclear.names other hother ns hns m n hm hlast hstem
  rw [hfile] at habi
  cases habi
  obtain ⟨there, hlookup⟩ := read_eq_ok_iff.1 hread
  have hinto := isInto_artifact (c := c) hready.workspace_isAbsolute
    (hready.normal ns hns n (List.mem_of_getLast? hlast))
  -- outside of the package nothing changes
  have hfound : found.lookup (artifactPath workspace c n (Path.stemOf n))
      = .ok (there, .file content) :=
    ((AgreesOutside.of_fills hu.grows.fills).lookup hready.settled.proper.sound hu.proper.sound
      hready.linkless hinto.absolute (up_notMem_of_isInto hinto hclear.outDir)
      (hclear.outside ns hns n hlast)).symm.trans hlookup
  refine ⟨there, ?_, ht.grows.lookup hready.settled.proper hready.linkless hfound⟩
  rintro rfl
  obtain ⟨-, hentry, -⟩ := denotes_of_lookup hready.settled.proper.sound hfound
  rw [hready.entryAt_abiPlace] at hentry
  cases hentry

/-- Reading a source. -/
theorem approaches_readSource (hns : ns ∈ interfaces) {source : Text}
    (hread : u.readText (workspace.join (interfacePath c ns)) = .ok source) :
    Approaches found here u (.once (readSource (workspace.join (interfacePath c ns)))) s
      fun text _ => text = source := by
  refine .inspect fun t ht _ => ?_
  rw [readText_of_isOnWay hready hclear hu hns hread ht]
  exact fun _ _ _ => rfl

/-- Looking for what the compiler has put out. -/
theorem approaches_requireArtifact (hns : ns ∈ interfaces) (hlast : ns.getLast? = some n)
    {content : Bytes} (hfile : u.entryAt (abiPlace here (Path.stemOf n)) = some (.file content)) :
    Approaches found here u
      (.once (requireArtifact (Path.stemOf n) (artifactPath workspace c n (Path.stemOf n)))) s
      fun _ _ => True := by
  refine .inspect fun t ht _ => ?_
  obtain ⟨there, -, hlookup⟩ := lookup_artifact_of_isOnWay hready hclear hu hns hlast hfile ht
  rw [if_pos (by rw [isFile, hlookup])]
  exact fun _ _ _ => trivial

/-- All steps of an interface go on towards the package, and report the interface as it is there. -/
theorem approaches_interfaceScript (hns : ns ∈ interfaces) (hlast : ns.getLast? = some n)
    {x : ExportedInterface} (hplaced : IsPlaced u workspace c table here ns x)
    (hs : IsOnWay found here u s.tree) :
    Approaches found here u (interfaceScript workspace c table (interfacePath c ns)) s
      fun y t => y = x ∧ IsFile (t.entryAt (contractPlace here ns)) ∧
        ∀ m, ns.getLast? = some m → IsFile (t.entryAt (abiPlace here (Path.stemOf m))) := by
  have hlinks := hu.isLinkless hready
  have hnormal := hready.normal ns hns
  have hcontractPath := isInto_contract hready.workspace_isAbsolute c hnormal
  have habiPath := isInto_abi hready.workspace_isAbsolute c
    (isNormal_compiled (interfaceName_interfacePath c hnormal hlast))
  obtain ⟨source, k, hread, hk, rfl⟩ := hplaced.reported
  rw [hlast] at hk
  cases hk
  obtain ⟨content, hcontract⟩ := hplaced.contract
  obtain ⟨bytes, habi⟩ := hplaced.compiled n hlast
  obtain ⟨-, hcontractEntry, -⟩ := denotes_of_lookup hu.proper.sound hcontract
  obtain ⟨-, habiEntry, -⟩ := denotes_of_lookup hu.proper.sound habi
  obtain ⟨source', hread', rfl⟩ := hu.contract ns hns content hcontractEntry
  rw [hread] at hread'
  cases hread'
  rw [interfaceScript_eq workspace c table hnormal hlast]
  refine (approaches_readSource hready hclear hu hns hread).bind hs fun text s₁ hs₁ _ htext => ?_
  subst htext
  refine (approaches_makeParent hready hu hcontractPath (by simp) hclear.exportDir hcontract).bind
    hs₁ fun _ s₂ hs₂ _ hparent₂ => ?_
  refine (approaches_change hready hu hcontractPath (by simp) hclear.exportDir hcontract hparent₂
    fun t ht habove => ?_).bind hs₂ fun _ s₃ hs₃ _ hcontract₃ => ?_
  · exact ht.part.write ht.grows.fills.proper.sound hlinks hu.proper.sound hcontractPath.absolute
      (up_notMem_of_isInto hcontractPath hclear.exportDir) hcontract habove
  refine (approaches_requireArtifact hready hclear hu hns hlast habiEntry).bind
    hs₃ fun _ s₄ hs₄ hkept₄ _ => ?_
  refine (approaches_makeParent hready hu habiPath (by simp) hclear.exportDir habi).bind
    hs₄ fun _ s₅ hs₅ hkept₅ hparent₅ => ?_
  refine (approaches_change hready hu habiPath (by simp) hclear.exportDir habi hparent₅
    fun t ht habove => ?_).bind hs₅ fun _ s₆ hs₆ hkept₆ habi₆ => ?_
  · obtain ⟨there, hne, hlookup⟩ :=
      lookup_artifact_of_isOnWay hready hclear hu hns hlast habiEntry ht
    exact ht.part.copy ht.grows.fills.proper.sound hlinks hu.proper.sound habiPath.absolute
      (up_notMem_of_isInto habiPath hclear.exportDir) hlookup habi habove hne.symm
  -- what has been put in its place is there at the end, whatever the others have done since
  intro s₇ _ hkept₇
  have hkept : IsPartOf s₃.tree s₇.tree :=
    trans_of _ hkept₄ (trans_of _ hkept₅ (trans_of _ hkept₆ hkept₇))
  refine ⟨rfl, ⟨_, hkept _ _ hcontract₃⟩, fun m hm => ?_⟩
  rw [hlast] at hm
  cases hm
  exact ⟨_, hkept₇ _ _ habi₆⟩

end

/-! ## At the end -/

/-- A part of the package that has all files of the interfaces is all of it. -/
theorem IsOnWay.eq (ht : IsOnWay found here u t)
    (hu : Progress found workspace c table here interfaces u)
    (hroot : t.entries[([] : Place)]? = u.entries[([] : Place)]?)
    (hall : ∀ target, IsTarget here interfaces target → IsFile (t.entryAt target)) : t = u := by
  refine ext_entryAt hroot (fun q => ?_) (ht.grows.fills.start.trans hu.grows.fills.start.symm)
  cases hfound : found.entryAt q with
  | some e => rw [ht.grows.old q e hfound, hu.grows.old q e hfound]
  | none =>
    by_cases hq : t.entryAt q = none
    · rw [hq]
      refine (Classical.byContradiction fun hsome => ?_ : _ = _).symm
      -- what is missing would be on the way to a file that is there
      obtain ⟨target, htarget, hnew⟩ := hu.new q hfound hsome
      obtain ⟨content, hcontent⟩ := hall target htarget
      rcases hnew with rfl | ⟨hbelow, -⟩
      · rw [hcontent] at hq
        cases hq
      · rw [ht.grows.fills.proper.sound.none_below (by simp [hq]) hbelow] at hcontent
        cases hcontent
    · exact ht.part.entryAt_eq hq

/-- An interface that is done is reported in one way only. -/
theorem IsPlaced.unique {x y : ExportedInterface} (hx : IsPlaced t workspace c table here ns x)
    (hy : IsPlaced t workspace c table here ns y) : x = y := by
  obtain ⟨source, n, hread, hn, rfl⟩ := hx.reported
  obtain ⟨source', n', hread', hn', rfl⟩ := hy.reported
  rw [hread] at hread'
  cases hread'
  rw [hn] at hn'
  cases hn'
  rfl

/-- Exporting interfaces changes nothing at the root. -/
theorem exportByTurns_root (h : Settled s.tree (workspace.join c.exportDir) here)
    (habs : workspace.isAbsolute = true) (hnormal : ∀ ns ∈ interfaces, ∀ n ∈ ns, IsNormal n)
    {turns : List Nat}
    (hrun : outcome (exportByTurns turns workspace c table interfaces) s = (.ok results, s')) :
    s'.tree.entries[([] : Place)]? = s.tree.entries[([] : Place)]? := by
  have hwithin := withstands_within h fun _ => True
  have hkeeps := Script.Keeps.sideBySide
    (fun ns hns => hwithin.interfaceScript habs trivial trivial table (hnormal ns hns)) turns
  exact (hkeeps.ok (Within.refl h.proper here _) hrun).root

/-- It changes nothing but the tree. -/
theorem session_of_exportByTurns {turns : List Nat}
    (hrun : outcome (exportByTurns turns workspace c table interfaces) s = (.ok results, s')) :
    s' = { s with tree := s'.tree } := by
  have honly := onlyTree_sideBySide workspace c table turns (interfaces.map (interfacePath c)) s
  rw [List.map_map] at honly
  change OnlyTree s (outcome (exportByTurns turns workspace c table interfaces) s).2 at honly
  rwa [hrun] at honly

/-- Whenever some turns export all interfaces, any other turns do so with the same outcome. -/
theorem exportByTurns_any_order (hready : IsReady s.tree workspace c here root interfaces)
    (hclear : IsUndisputed workspace c here interfaces) (hnames : [] ∉ interfaces)
    {turns : List Nat}
    (hrun : outcome (exportByTurns turns workspace c table interfaces) s = (.ok results, s'))
    (other : List Nat) :
    outcome (exportByTurns other workspace c table interfaces) s = (.ok results, s') := by
  obtain ⟨hu, hplaced⟩ := exportByTurns_fills hready hnames hrun
  have hstart : IsOnWay s.tree here s'.tree s.tree :=
    ⟨.refl hready.settled.proper here, hu.grows.old⟩
  have hscript : ∀ ns ∈ interfaces, Approaches s.tree here s'.tree
      (interfaceScript workspace c table (interfacePath c ns)) s
      fun x t => IsPlaced s'.tree workspace c table here ns x ∧
        IsFile (t.entryAt (contractPlace here ns)) ∧
        ∀ n, ns.getLast? = some n → IsFile (t.entryAt (abiPlace here (Path.stemOf n))) := by
    intro ns hns
    obtain ⟨n, hlast⟩ := exists_getLast? hnames hns
    obtain ⟨x, -, hx⟩ := exists_of_forall₂ hplaced hns
    refine (approaches_interfaceScript hready hclear hu hns hlast hx hstart).weaken ?_ fun _ h => h
    rintro y s₁ ⟨rfl, hfiles⟩
    exact ⟨hx, hfiles⟩
  obtain ⟨honWay, -, hresult⟩ := sideBySide_yields hstart hscript other
  cases hend : outcome (exportByTurns other workspace c table interfaces) s with
  | mk result s₁ =>
    rw [hend] at honWay hresult
    cases result with
    | error e => exact hresult.elim
    | ok as =>
      have htree : s₁.tree = s'.tree := by
        refine honWay.eq hu ?_ ?_
        · rw [exportByTurns_root hready.settled hready.workspace_isAbsolute hready.normal hend,
            exportByTurns_root hready.settled hready.workspace_isAbsolute hready.normal hrun]
        · rintro target (hns | ⟨hns, hlast⟩)
          · obtain ⟨x, -, -, hcontract, -⟩ := exists_of_forall₂ hresult hns
            exact hcontract
          · obtain ⟨x, -, -, -, habi⟩ := exists_of_forall₂ hresult hns
            exact habi _ hlast
      have hresults : as = results :=
        List.right_unique_forall₂' (fun _ _ _ h h' => h.unique h') (hresult.imp fun _ _ h => h.1)
          hplaced
      have hsession : s₁ = s' := by
        rw [session_of_exportByTurns hend, session_of_exportByTurns hrun, htree]
      rw [hresults, hsession]

/-- Interfaces that are reported without conflicts do not come in each other's way. -/
theorem isUndisputed_of_reports (hexportDir : .up ∉ (workspace.join c.exportDir).route)
    (hinterfacesDir : .up ∉ (workspace.join c.interfacesDir).route)
    (houtDir : .up ∉ (workspace.join c.outDir).route)
    (hnormal : ∀ ns ∈ interfaces, ∀ n ∈ ns, IsNormal n)
    (hreported : List.Forall₂ (IsReported c) interfaces results)
    (houtside : ∀ x ∈ results, ¬ isBelow here
      (artifactPath workspace c (x.source.fileName.getD x.name) x.name).endpoint = true)
    (hnames : ∀ x ∈ results, ∀ y ∈ results, x.name = y.name →
      x.source.fileName = y.source.fileName) : IsUndisputed workspace c here interfaces := by
  have hreport : ∀ ns ∈ interfaces, ∀ n, ns.getLast? = some n → ∃ x ∈ results,
      x.name = Path.stemOf n ∧ x.source.fileName = some n := by
    intro ns hns n hlast
    obtain ⟨x, hx, m, relocated, hm, rfl⟩ := exists_of_forall₂ hreported hns
    rw [hlast] at hm
    cases hm
    exact ⟨_, hx, rfl, fileName_interfacePath c (hnormal ns hns) hlast⟩
  refine ⟨hexportDir, hinterfacesDir, houtDir, fun ns hns n hlast => ?_,
    fun ns hns ms hms n m hn hm hstem => ?_⟩
  · obtain ⟨x, hx, hname, hfile⟩ := hreport ns hns n hlast
    have hbelow := houtside x hx
    rwa [hfile, hname] at hbelow
  · obtain ⟨x, hx, hname, hfile⟩ := hreport ns hns n hn
    obtain ⟨y, hy, hname', hfile'⟩ := hreport ms hms m hm
    have hsame := hnames x hx y hy (by rw [hname, hname', hstem])
    rw [hfile, hfile'] at hsame
    exact Option.some.inj hsame

/-- Whenever some turns fill a package without conflicts, any other turns do so with the same
outcome. -/
theorem fillPackage_any_order (hopened : IsOpened s.tree workspace c here)
    (hexportDir : .up ∉ (workspace.join c.exportDir).route)
    (hinterfacesDir : .up ∉ (workspace.join c.interfacesDir).route)
    (houtDir : .up ∉ (workspace.join c.outDir).route) {turns : List Nat}
    (hrun : outcome (fillPackage workspace c table turns) s = (.ok results, s'))
    (houtside : ∀ x ∈ results, ¬ isBelow here
      (artifactPath workspace c (x.source.fileName.getD x.name) x.name).endpoint = true)
    (hnames : ∀ x ∈ results, ∀ y ∈ results, x.name = y.name →
      x.source.fileName = y.source.fileName) (other : List Nat) :
    outcome (fillPackage workspace c table other) s = (.ok results, s') := by
  have ht := hopened.settled.proper
  obtain ⟨files, s₁, hinspect, hrest⟩ := outcome_bind_eq_ok.1 hrun
  obtain ⟨hfind, rfl⟩ := outcome_inspect_eq_ok.1 hinspect
  obtain ⟨results', s₂, hexport, hend⟩ := outcome_bind_eq_ok.1 hrest
  obtain ⟨_, s₃, hreport, hreturn⟩ := outcome_bind_eq_ok.1 hend
  cases hreturn
  obtain ⟨root, e, interfaces, hlookup, rfl, hnormal, hlisting, -⟩ :=
    findInterfaces_ok ht hopened.linkless hfind
  rw [List.map_map] at hexport
  have hreported :=
    exportByTurns_reports hopened.workspace_isAbsolute hopened.settled hnormal hexport
  have hnil := nil_notMem_of_reported hreported
  have hready : IsReady s₁.tree workspace c here root interfaces :=
    ⟨hopened, (denotes_of_lookup ht.sound hlookup).1, hnormal, hlisting hnil⟩
  have hclear := isUndisputed_of_reports hexportDir hinterfacesDir houtDir hnormal hreported
    houtside hnames
  refine outcome_bind_eq_ok.2 ⟨_, s₁, hinspect, outcome_bind_eq_ok.2 ⟨_, s₂, ?_, hend⟩⟩
  rw [List.map_map]
  exact exportByTurns_any_order hready hclear hnil hexport other

/-- Whenever an export of a project without links succeeds by some turns, it comes to the same by
any others, if no path climbs, what the compiler has put out is not in the export directory, and no
two interfaces of one name are in files of different names. -/
theorem run_any_order (programs : Programs) {current : Path} {a : Arguments} {turns : List Nat}
    (ht : t.IsProper) (hlinks : t.IsLinkless) (hcurrent : current.isAbsolute = true)
    (hup : ∀ p ∈ [current, a.workspace, c.exportDir, c.interfacesDir, c.outDir], .up ∉ p.components)
    (hresolve : Config.resolve t (current.join a.workspace) a = .ok c)
    {summary : Summary} {s : Session}
    (hrun : outcome (run programs current a turns) { tree := t } = (.ok summary, s))
    (houtside : ∀ x ∈ summary.interfaces,
      ¬ isBelow ((current.join a.workspace).join c.exportDir).endpoint
        (artifactPath (current.join a.workspace) c (x.source.fileName.getD x.name) x.name).endpoint
          = true)
    (hnames : ∀ x ∈ summary.interfaces, ∀ y ∈ summary.interfaces, x.name = y.name →
      x.source.fileName = y.source.fileName) (other : List Nat) :
    outcome (run programs current a other) { tree := t } = (.ok summary, s) := by
  have habs := Path.isAbsolute_join_of_isAbsolute hcurrent a.workspace
  have hlevel : ∀ p ∈ [c.exportDir, c.interfacesDir, c.outDir],
      .up ∉ ((current.join a.workspace).join p).route := fun p hp =>
    up_notMem_route_join (up_notMem_route_join (up_notMem_route (hup _ (by simp)))
      (up_notMem_route (hup _ (by simp))))
      (up_notMem_route (hup p (List.mem_cons_of_mem _ (List.mem_cons_of_mem _ hp))))
  rw [run_of_resolve_ok programs current a turns (s := { tree := t }) hresolve] at hrun
  rw [run_of_resolve_ok programs current a other (s := { tree := t }) hresolve]
  obtain ⟨results, s₁, hassemble, hrest⟩ := outcome_bind_eq_ok.1 hrun
  refine outcome_bind_eq_ok.2 ⟨results, s₁, ?_, hrest⟩
  obtain ⟨_, s₂, -, hreturn⟩ := outcome_bind_eq_ok.1 hrest
  cases hreturn
  rw [assemble_eq] at hassemble ⊢
  obtain ⟨table, s₃, hopen, hfill⟩ := outcome_bind_eq_ok.1 hassemble
  obtain ⟨here, -, hopened, -⟩ :=
    openPackage_ok (s := { tree := t }) ht hlinks habs (hlevel _ (by simp)) hopen
  obtain rfl := hopened.settled.denotes.eq_endpoint hopened.linkless hopened.settled.absolute
  exact outcome_bind_eq_ok.2 ⟨table, s₃, hopen, fillPackage_any_order hopened (hlevel _ (by simp))
    (hlevel _ (by simp)) (hlevel _ (by simp)) hfill houtside hnames other⟩

/-- The twin project before anything has been compiled. -/
def uncompiledProject : FileTree :=
  [["ws", "out", "IA.sol", "IA.json"], ["ws", "out", "IB.sol", "IB.json"]].foldl
    (fun t names => t.erase (names.map fun n : String => Utf8.encode n.toList)) twinProject

/-- Exports that fail have no such law: the turns decide which interface fails first. -/
example : [[], [1, 1, 1, 1, 1]].map (fun turns =>
    match (outcome (run noPrograms ['/', 'w', 's'] exportOnly turns)
      { tree := uncompiledProject }).1 with
    | .error (.missingArtifact name _) => name
    | _ => []) = ["IA".toList, "IB".toList] := by
  simp only [run, assemble, pack, packInterfaces, fillPackage, findInterfaces, filesWhere_eq]
  decide +kernel

end InterfacePackage.Export
