import InterfacePackage.Proofs.Export.Mirror

/-!
# Contracts written

What becomes of one interface in any tree without links, whether its export succeeds or not: as soon
as its source can be read and the contract can be written where it mirrors the source, the contract
stands there, and no failure that follows takes it away again. Main statement: `isMirrored`.
-/

namespace InterfacePackage.Export

open FileTree

variable {t t' : FileTree} {workspace path : Path} {c : Config} {ns : List Text}

/-! ## Files that stay -/

/-- In a tree without links a file with these contents is found under a path. -/
structure HoldsFile (t : FileTree) (path : Path) (content : Bytes) : Prop where
  proper : t.IsProper
  linkless : t.IsLinkless
  read : t.read path = .ok content

namespace HoldsFile

variable {content : Bytes}

/-- The text of such a file is read. -/
theorem readText {text : Text} (h : HoldsFile t path (Utf8.encode text)) :
    t.readText path = .ok text := by
  obtain ⟨q, hlookup⟩ := read_eq_ok_iff.1 h.read
  exact readText_eq_ok_iff.2 ⟨q, _, hlookup, Utf8.decode_encode text⟩

/-- Directories that are made leave it there. -/
theorem builds (h : HoldsFile t path content) {dir : Path} (hbuilds : Builds t dir t') :
    HoldsFile t' path content := by
  obtain ⟨q, hlookup⟩ := read_eq_ok_iff.1 h.read
  have hentry := hbuilds.kept (denotes_of_lookup h.proper.sound hlookup).2.1
  have hfound := lookup_mono h.proper.sound hbuilds.proper.sound hbuilds.start hbuilds.carries
    hlookup hentry (not_isLink_file content)
  exact ⟨hbuilds.proper, hbuilds.isLinkless h.linkless, read_eq_ok_iff.2 ⟨q, hfound⟩⟩

/-- So does a file that is put elsewhere. -/
theorem puts (h : HoldsFile t path content) {q : Place} {bytes : Bytes}
    (hne : ∀ p, t.Denotes path p → p ≠ q) (hputs : Puts t q (.file bytes) t') :
    HoldsFile t' path content := by
  obtain ⟨p, hlookup⟩ := read_eq_ok_iff.1 h.read
  obtain ⟨hdenotes, hentry, -⟩ := denotes_of_lookup h.proper.sound hlookup
  rw [← hputs.entryAt_of_ne (hne p hdenotes)] at hentry
  have hproper := hputs.proper h.proper
  have hfound := lookup_mono h.proper.sound hproper.sound hputs.start hputs.carries hlookup hentry
    (not_isLink_file content)
  exact ⟨hproper, hputs.isLinkless h.linkless (not_isLink_file bytes),
    read_eq_ok_iff.2 ⟨p, hfound⟩⟩

end HoldsFile

/-- A file that has been written is found under its path. -/
theorem holdsFile_of_write (ht : t.IsProper) (hlinks : t.IsLinkless) (hroute : path.route ≠ [])
    {content : Bytes} (hwrite : t.write path content = .ok t') : HoldsFile t' path content := by
  obtain ⟨q, hplace, hq, rfl⟩ := write_ok hwrite
  have hputs : Puts t q (.file content) (t.put q (.file content)) :=
    (denotes_of_place ht.sound hplace).puts_of_route ht.sound hroute hq
  have hfound := lookup_of_place ht.sound (hputs.proper ht).sound hputs.start hputs.carries hplace
    hputs.entryAt_self (not_isLink_file content)
  exact ⟨hputs.proper ht, hputs.isLinkless hlinks (not_isLink_file content),
    read_eq_ok_iff.2 ⟨q, hfound⟩⟩

/-! ## Where the parts of an interface go -/

/-- Without links a path that goes on by names leads to what has these names where the other one
leads by its spelling. -/
theorem place_of_goesInto (hlinks : t.IsLinkless) {dir : Path} {names : List Name}
    (hpath : dir.GoesInto path names) {q : Place} (hq : t.Denotes path q) :
    q = dir.route.foldl Step.move (t.startOf dir) ++ names := by
  have hstart : t.startOf path = t.startOf dir := by rw [startOf, startOf, hpath.absolute]
  rw [Reaches.place_eq hlinks hq, hstart, hpath.route, List.foldl_append, foldl_move_names]

/-- Without links no contract is where a compiled interface goes. -/
theorem contract_ne_abi (hlinks : t.IsLinkless) (hns : ∀ n ∈ ns, IsNormal n) {name : Text}
    (hname : IsNormal (name ++ ".json")) {p q : Place}
    (hp : t.Denotes (workspace.join (contractPath c ns)) p)
    (hq : t.Denotes (abiPath workspace c name) q) : p ≠ q := by
  rw [place_of_goesInto hlinks (goesInto_contract workspace c hns) hp,
    place_of_goesInto hlinks (goesInto_abi workspace c hname) hq]
  exact contractPlace_ne_abiPlace ns name

/-- The path of a contract has steps to take. -/
theorem route_contractPath_ne_nil (workspace : Path) (c : Config) (hns : ∀ n ∈ ns, IsNormal n) :
    (workspace.join (contractPath c ns)).route ≠ [] := by
  rw [contractPath, (goesInto_contract workspace c hns).route, List.map_cons]
  exact List.append_ne_nil_of_right_ne_nil _ (List.cons_ne_nil _ _)

/-! ## The parts of an interface's export -/

/-- Making the directory above a path keeps what directories that are made leave alone. -/
theorem ensures_makeParent {P : FileTree → Prop}
    (hbuilds : ∀ t dir t', P t → Builds t dir t' → P t') (hproper : ∀ t, P t → t.IsProper)
    (path : Path) :
    Ensures (fun s => P s.tree) (makeParent path) (fun _ s => P s.tree)
      (fun e s => P s.tree ∧ ∃ parent fault, path.parent = some parent ∧
        e = .access .create parent fault) := by
  unfold makeParent
  cases hparent : path.parent with
  | none => exact .pure fun _ h => h
  | some parent =>
    have hmake := @ensures_alter P (makeDirectories parent) .create parent fun t ht =>
      hbuilds t parent _ ht (makeDirectories_builds (hproper t ht) parent)
    refine hmake.weaken (fun _ h => h) (fun _ _ h => h) ?_
    rintro e s ⟨hs, fault, rfl⟩
    exact ⟨hs, parent, fault, rfl, rfl⟩

/-- A part of an export that leaves a file where it is, and does not fail because an interface has
no name. -/
def LeavesAlone {α : Type} (path : Path) (content : Bytes) (act : Action α) : Prop :=
  Ensures (fun s => HoldsFile s.tree path content) act (fun _ s => HoldsFile s.tree path content)
    (fun e s => (∀ file, e ≠ .unnamedInterface file) ∧ HoldsFile s.tree path content)

section

variable {α β : Type} {content : Bytes}

theorem LeavesAlone.bind {act : Action α} {next : α → Action β} (h : LeavesAlone path content act)
    (hnext : ∀ a, LeavesAlone path content (next a)) : LeavesAlone path content (act >>= next) :=
  Ensures.bind h hnext

end

/-- Copying a compiled interface into the package leaves the contract where it is. -/
theorem leavesAlone_copyFile (hns : ∀ n ∈ ns, IsNormal n) {name : Text}
    (hname : IsNormal (name ++ ".json")) (content : Bytes) (source : Path) :
    LeavesAlone (workspace.join (contractPath c ns)) content
      (copyFile source (abiPath workspace c name)) := by
  have hparent := @ensures_makeParent
    (fun t => HoldsFile t (workspace.join (contractPath c ns)) content)
    (fun _ _ _ h hbuilds => h.builds hbuilds) (fun _ h => h.proper) (abiPath workspace c name)
  have hcopy := @ensures_change (fun t => HoldsFile t (workspace.join (contractPath c ns)) content)
    (fun t => HoldsFile t (workspace.join (contractPath c ns)) content)
    (·.copy source (abiPath workspace c name)) .copy source ?_
  · refine LeavesAlone.bind (hparent.weaken (fun _ h => h) (fun _ _ h => h) ?_) fun _ =>
      hcopy.weaken (fun _ h => h) (fun _ _ h => h) ?_
    · rintro e s ⟨hs, parent, fault, -, rfl⟩
      exact ⟨nofun, hs⟩
    · rintro e s ⟨hs, fault, rfl⟩
      exact ⟨nofun, hs⟩
  · -- the compiled form goes to `abi`, and the contract is not there
    intro t t' ht hrun
    obtain ⟨there, bytes, q, -, hplace, hq, rfl⟩ := copy_ok hrun
    have hdenotes := denotes_of_place ht.proper.sound hplace
    have hroute : (abiPath workspace c name).route ≠ [] := by
      rw [abiPath, (goesInto_abi workspace c hname).route]
      exact List.append_ne_nil_of_right_ne_nil _ (List.cons_ne_nil _ _)
    exact ht.puts (fun p hp => contract_ne_abi ht.linkless hns hname hp hdenotes)
      (hdenotes.puts_of_route ht.proper.sound hroute hq)

/-- So does looking for the compiled interface. -/
theorem leavesAlone_requireArtifact (content : Bytes) (name : Text) (artifact : Path) :
    LeavesAlone path content (requireArtifact name artifact) := by
  intro s hs
  rw [requireArtifact, outcome_inspect]
  split
  · rename_i hfound
    split at hfound
    · cases hfound
      exact hs
    · cases hfound
  · rename_i hfound
    split at hfound
    · cases hfound
    · cases hfound
      exact ⟨nofun, hs⟩

/-! ## The whole export of an interface -/

/-- The contract of an interface is the relocated source, as it could be read before. -/
def WritesContract (workspace : Path) (c : Config) (table : Import.Table) (ns : List Text)
    (t t' : FileTree) : Prop :=
  ∃ source, t.readText (workspace.join (interfacePath c ns)) = .ok source ∧
    t'.readText (workspace.join (contractPath c ns)) = .ok (relocatedSource c table ns source).text

/-- The failures after which there is no contract: the source is not read, or the contract is not
written, as the operating system has it. -/
inductive Unwritten (workspace : Path) (c : Config) (ns : List Text) : Failure → Prop where
  | source (fault : Fault) :
      Unwritten workspace c ns (.access .read (workspace.join (interfacePath c ns)) fault)
  | directory {parent : Path} (fault : Fault)
      (h : (workspace.join (contractPath c ns)).parent = some parent) :
      Unwritten workspace c ns (.access .create parent fault)
  | file (fault : Fault) :
      Unwritten workspace c ns (.access .write (workspace.join (contractPath c ns)) fault)

theorem Unwritten.named {e : Failure} (h : Unwritten workspace c ns e) (file : Path) :
    e ≠ .unnamedInterface file := by
  cases h <;> nofun

/-- The contract is written behind the directory above it, or the failure is one of the two. -/
theorem ensures_writeContract (workspace : Path) (c : Config) (hns : ∀ n ∈ ns, IsNormal n)
    (text : Text) :
    Ensures (fun s => s.tree.IsProper ∧ s.tree.IsLinkless)
      (makeParent (workspace.join (contractPath c ns)) >>= fun _ =>
        writeFile (workspace.join (contractPath c ns)) text)
      (fun _ s => HoldsFile s.tree (workspace.join (contractPath c ns)) (Utf8.encode text))
      (fun e _ => Unwritten workspace c ns e) := by
  have hparent := @ensures_makeParent (fun t => t.IsProper ∧ t.IsLinkless)
    (fun _ _ _ h hbuilds => ⟨hbuilds.proper, hbuilds.isLinkless h.2⟩) (fun _ h => h.1)
    (workspace.join (contractPath c ns))
  have hwrite := @ensures_change (fun t => t.IsProper ∧ t.IsLinkless)
    (fun t => HoldsFile t (workspace.join (contractPath c ns)) (Utf8.encode text))
    (·.write (workspace.join (contractPath c ns)) (Utf8.encode text)) .write
    (workspace.join (contractPath c ns)) fun _ _ h hrun =>
      holdsFile_of_write h.1 h.2 (route_contractPath_ne_nil workspace c hns) hrun
  refine Ensures.bind (hparent.weaken (fun _ h => h) (fun _ _ h => h) ?_) fun _ =>
    hwrite.weaken (fun _ h => h) (fun _ _ h => h) ?_
  · rintro e s ⟨-, parent, fault, habove, rfl⟩
    exact .directory fault habove
  · rintro e s ⟨-, fault, rfl⟩
    exact .file fault

/-- Both parts of an interface are written one after the other. It does not fail for want of a name,
and the contract is there unless it could not be written. -/
theorem ensures_writeParts {α : Type} (workspace : Path) (c : Config) (hns : ∀ n ∈ ns, IsNormal n)
    {name : Text} (hname : IsNormal (name ++ ".json")) (artifact : Path) (text : Text)
    (result : α) :
    Ensures (fun s => s.tree.IsProper ∧ s.tree.IsLinkless)
      (do
        makeParent (workspace.join (contractPath c ns))
        writeFile (workspace.join (contractPath c ns)) text
        requireArtifact name artifact
        copyFile artifact (abiPath workspace c name)
        return result)
      (fun x s => x = result ∧
        HoldsFile s.tree (workspace.join (contractPath c ns)) (Utf8.encode text))
      (fun e s => (∀ file, e ≠ .unnamedInterface file) ∧ (Unwritten workspace c ns e ∨
        HoldsFile s.tree (workspace.join (contractPath c ns)) (Utf8.encode text))) := by
  have hwrite := ensures_writeContract workspace c hns text
  have hcopy := (leavesAlone_requireArtifact (Utf8.encode text) name artifact).bind fun _ =>
    @leavesAlone_copyFile workspace c ns hns name hname (Utf8.encode text) artifact
  rw [← bind_assoc, ← bind_assoc (requireArtifact name artifact)]
  refine Ensures.bind (hwrite.weaken (fun _ h => h) (fun _ _ h => h) ?_) fun _ =>
    Ensures.bind (hcopy.weaken (fun _ h => h) (fun _ _ h => h) ?_) fun _ => .pure ?_
  · exact fun e _ h => ⟨h.named, .inl h⟩
  · exact fun e s h => ⟨h.1, .inr h.2⟩
  · exact fun s h => ⟨rfl, h⟩

/-- An interface has its contract where its source is below the directory of the interfaces. From
any tree without links it is exported to that path. If this fails it is not for want of a name, and
the contract is there unless the source cannot be read or the contract cannot be written. -/
structure IsMirrored (workspace : Path) (c : Config) (ns : List Text) : Prop where
  relative : (interfacePath c ns).stripPrefix c.interfacesDir = some (slashed ns)
  exports : ∀ (table : Import.Table) (t : FileTree), t.IsProper → t.IsLinkless →
    Ensures (fun s => s.tree = t) (exportInterface workspace c table (interfacePath c ns))
      (fun x s => x.source = interfacePath c ns ∧ x.contract = contractPath c ns ∧
        WritesContract workspace c table ns t s.tree)
      (fun e s => (∀ file, e ≠ .unnamedInterface file) ∧
        (Unwritten workspace c ns e ∨ WritesContract workspace c table ns t s.tree))

/-- Every interface with normal names is mirrored. -/
theorem isMirrored (workspace : Path) (c : Config) (hns : ∀ n ∈ ns, IsNormal n) (hne : ns ≠ []) :
    IsMirrored workspace c ns := by
  have hstrip := Path.stripPrefix_join_names c.interfacesDir hns
  refine ⟨hstrip, fun table t ht hlinks => ?_⟩
  have hlast := List.getLast?_eq_some_getLast hne
  have hname := isNormal_compiled (interfaceName_interfacePath c hns hlast)
  rw [exportInterface_eq workspace c table hns hlast]
  -- the source is read, and the tree is still the one it was read from
  have hread := @ensures_inspect _ (· = t)
    (fun e t' => (∀ file, e ≠ .unnamedInterface file) ∧
      (Unwritten workspace c ns e ∨ WritesContract workspace c table ns t t'))
    (fun t => (t.readText (workspace.join (interfacePath c ns))).mapError
      (.access .read (workspace.join (interfacePath c ns)))) ?_
  · refine Ensures.bind hread fun source => ?_
    rintro s ⟨rfl, hmapped⟩
    have hsource := eq_ok_of_mapError_eq_ok hmapped
    have hcontract : ∀ s', HoldsFile s' (workspace.join (contractPath c ns))
        (Utf8.encode (relocatedSource c table ns source).text) →
        WritesContract workspace c table ns s.tree s' := fun s' h => ⟨source, hsource, h.readText⟩
    have hparts := ensures_writeParts workspace c hns hname
      (artifactPath workspace c (ns.getLast hne) (Path.stemOf (ns.getLast hne)))
      (relocatedSource c table ns source).text
      (reportOf c ns (Path.stemOf (ns.getLast hne)) (relocatedSource c table ns source))
    refine (hparts.weaken (fun _ h => h) ?_ ?_) s ⟨ht, hlinks⟩
    · rintro x s' ⟨rfl, hholds⟩
      exact ⟨rfl, rfl, hcontract _ hholds⟩
    · exact fun e s' h => ⟨h.1, h.2.imp_right (hcontract _)⟩
  · rintro t' e rfl hfailed
    obtain ⟨fault, rfl⟩ := eq_of_mapError_eq_error hfailed
    have hunwritten : Unwritten workspace c ns _ := .source fault
    exact ⟨hunwritten.named, .inl hunwritten⟩

end InterfacePackage.Export
