import InterfacePackage.Export.Interfaces
import InterfacePackage.Proofs.Export.Listing
import InterfacePackage.Proofs.FileTree.Fill

/-!
# The layout of a package

Where in the export directory the parts of a package go: all their paths go on from the one of the
export directory by names. Main statements: `isInto_name`, `isInto_contract`, `isInto_abi` and
`interfaceScript_eq` (the steps of an interface that is found, with these paths).
-/

namespace InterfacePackage

namespace Path

/-- Going on twice. -/
theorem IsInto.trans {a b c : Path} {ns ms : List Name} (h : IsInto a b ns) (h' : IsInto b c ms) :
    IsInto a c (ns ++ ms) where
  absolute := h'.absolute
  route := by rw [h'.route, h.route, List.map_append, List.append_assoc]

/-- A path that goes on from another one by names, and starts where that does. -/
structure GoesInto (dir path : Path) (names : List Name) : Prop where
  absolute : path.isAbsolute = dir.isAbsolute
  route : path.route = dir.route ++ names.map .into

/-- Going on twice. -/
theorem GoesInto.trans {a b c : Path} {ns ms : List Name} (h : GoesInto a b ns)
    (h' : GoesInto b c ms) : GoesInto a c (ns ++ ms) where
  absolute := h'.absolute.trans h.absolute
  route := by rw [h'.route, h.route, List.map_append, List.append_assoc]

/-- From an absolute path it is an absolute path that goes on. -/
theorem GoesInto.isInto {dir path : Path} {names : List Name} (h : GoesInto dir path names)
    (habs : dir.isAbsolute = true) : IsInto dir path names :=
  ⟨h.absolute.trans habs, h.route⟩

/-- A relative path by names goes on from any other, also when that is itself seen from a
directory. -/
theorem goesInto_join (workspace dir : Path) {rest : Path} {ns : List Name}
    (hrest : rest.isAbsolute = false) (hroute : rest.route = ns.map .into) :
    GoesInto (workspace.join dir) (workspace.join (dir.join rest)) ns := by
  have hdir : (dir.join rest).isAbsolute = dir.isAbsolute := by
    rw [isAbsolute_join_eq, hrest, Bool.or_false]
  refine ⟨by rw [isAbsolute_join_eq, hdir, ← isAbsolute_join_eq], ?_⟩
  cases habs : dir.isAbsolute with
  | true => rw [join.eq_def workspace, hdir, if_pos habs, join.eq_def workspace, if_pos habs,
      route_join hrest, hroute]
  | false => rw [route_join (hdir.trans habs), route_join habs, route_join hrest, hroute,
      List.append_assoc]

/-- From an absolute workspace it is an absolute path that goes on. -/
theorem isInto_join {workspace dir rest : Path} {ns : List Name}
    (habs : workspace.isAbsolute = true) (hrest : rest.isAbsolute = false)
    (hroute : rest.route = ns.map .into) :
    IsInto (workspace.join dir) (workspace.join (dir.join rest)) ns :=
  (goesInto_join workspace dir hrest hroute).isInto (isAbsolute_join_of_isAbsolute habs dir)

/-- A path that goes on from an absolute one by a normal name. -/
theorem isInto_name {dir : Path} {n : Text} (habs : dir.isAbsolute = true) (h : IsNormal n) :
    IsInto dir (dir.join n) [Utf8.encode n] where
  absolute := isAbsolute_join_of_isAbsolute habs n
  route := by
    rw [route_join (isAbsolute_of_isNormal h), route_name h]
    rfl

/-! ## Names of files -/

/-- The name that a path ends in holds no slash. -/
theorem slash_notMem_of_fileName {p : Path} {n : Text} (h : p.fileName = some n) : '/' ∉ n := by
  unfold fileName at h
  split at h
  · rename_i m hlast
    cases h
    have hmem := List.mem_of_getLast? hlast
    rw [components_eq, List.mem_append] at hmem
    rcases hmem with hmem | hmem
    -- what opens a path is no name
    · unfold opening at hmem
      repeat' split at hmem
      all_goals simp at hmem
    · obtain ⟨piece, hpiece, hname⟩ := List.mem_filterMap.1 hmem
      have hslash := Text.notMem_of_mem_split hpiece
      unfold Component.ofPiece? at hname
      split at hname
      · cases hname
      · cases hname
      · cases hname
      · cases hname
        exact hslash
  · cases h

/-- The part of a file name before its extension holds nothing that the name does not. -/
theorem mem_of_mem_stemOf {name : Text} {c : Char} (h : c ∈ stemOf name) : c ∈ name := by
  unfold stemOf at h
  split at h
  · exact h
  · exact h
  · rename_i dot before _ hdrop
    have hmem : c ∈ name.reverse.dropWhile (· ≠ '.') := by
      rw [hdrop]
      exact List.mem_cons_of_mem _ (List.mem_reverse.1 h)
    exact List.mem_reverse.1 ((List.dropWhile_sublist _).mem hmem)

/-- A name with the extension of compiled files has the rest of it as its stem. -/
theorem stemOf_json {name : Text} (hname : name ≠ []) : stemOf (name ++ ".json") = name := by
  obtain ⟨front, last, rfl⟩ := (List.eq_nil_or_concat name).resolve_left hname
  have hdrop : (front.concat last ++ ".json".toList).reverse.dropWhile (· ≠ '.')
      = '.' :: last :: front.reverse := by
    rw [List.concat_eq_append, List.reverse_append, List.reverse_append]
    rfl
  unfold stemOf
  rw [hdrop, List.concat_eq_append]
  change (last :: front.reverse).reverse = front ++ [last]
  rw [List.reverse_cons, List.reverse_reverse]

/-- The stem of a name is not empty. -/
theorem stemOf_ne_nil {name : Text} (hname : name ≠ []) : stemOf name ≠ [] := by
  unfold stemOf
  split
  · exact hname
  · exact hname
  · rename_i hbefore hdrop
    intro hnil
    rw [List.reverse_eq_nil_iff] at hnil
    exact hbefore hnil

end Path

namespace Export

/-- A name with the extension of compiled files is normal. -/
theorem isNormal_json {name : Text} (hslash : '/' ∉ name) : IsNormal (name ++ ".json") := by
  have hlength : 5 ≤ (name ++ ".json".toList).length := by
    rw [List.length_append]
    exact Nat.le_add_left 5 _
  refine ⟨?_, ?_, ?_, ?_⟩
  · intro h
    rw [h] at hlength
    simp at hlength
  · intro h
    rw [h] at hlength
    simp at hlength
  · intro h
    rw [h] at hlength
    simp at hlength
  · rw [List.mem_append, not_or]
    exact ⟨hslash, by decide⟩

/-- The file of a compiled interface has a normal name. -/
theorem isNormal_compiled {file : Path} {name : Text} (h : Import.interfaceName file = some name) :
    IsNormal (name ++ ".json") := by
  unfold Import.interfaceName Path.fileStem at h
  rw [Option.map_eq_some_iff] at h
  obtain ⟨n, hn, rfl⟩ := h
  exact isNormal_json fun hmem => Path.slash_notMem_of_fileName hn (Path.mem_of_mem_stemOf hmem)

variable {workspace : Path} {c : Config} {ns : List Text}

/-- What remains of an interface's path below the directory of the interfaces are its names. -/
theorem relative_of_names (c : Config) (hns : ∀ n ∈ ns, IsNormal n) :
    ((c.interfacesDir.join (slashed ns)).stripPrefix c.interfacesDir).getD
      (c.interfacesDir.join (slashed ns)) = slashed ns := by
  rw [Path.stripPrefix_join_names c.interfacesDir hns]
  rfl

/-- A relocated source goes to the place under `contracts` that mirrors the one of its source. -/
theorem goesInto_contract (workspace : Path) (c : Config) (hns : ∀ n ∈ ns, IsNormal n) :
    (workspace.join c.exportDir).GoesInto (workspace.join (c.contractsDir.join (slashed ns)))
      (Utf8.encode "contracts" :: ns.map Utf8.encode) := by
  have hcontracts : IsNormal "contracts" := by decide
  have hfirst : (workspace.join c.exportDir).GoesInto (workspace.join c.contractsDir)
      [Utf8.encode "contracts"] :=
    Path.goesInto_join _ _ (Path.isAbsolute_of_isNormal hcontracts) (Path.route_name hcontracts)
  exact hfirst.trans
    (Path.goesInto_join _ _ (Path.isAbsolute_join_names hns) (Path.route_join_names hns))

/-- A compiled interface goes right into `abi`. -/
theorem goesInto_abi (workspace : Path) (c : Config) {compiled : Text} (h : IsNormal compiled) :
    (workspace.join c.exportDir).GoesInto (workspace.join (c.abiDir.join compiled))
      [Utf8.encode "abi", Utf8.encode compiled] := by
  have habi : IsNormal "abi" := by decide
  have hfirst : (workspace.join c.exportDir).GoesInto (workspace.join c.abiDir)
      [Utf8.encode "abi"] :=
    Path.goesInto_join _ _ (Path.isAbsolute_of_isNormal habi) (Path.route_name habi)
  exact hfirst.trans
    (Path.goesInto_join _ _ (Path.isAbsolute_of_isNormal h) (Path.route_name h))

/-- From an absolute workspace the relocated source goes to an absolute path. -/
theorem isInto_contract (habs : workspace.isAbsolute = true) (c : Config)
    (hns : ∀ n ∈ ns, IsNormal n) :
    (workspace.join c.exportDir).IsInto (workspace.join (c.contractsDir.join (slashed ns)))
      (Utf8.encode "contracts" :: ns.map Utf8.encode) :=
  (goesInto_contract workspace c hns).isInto (Path.isAbsolute_join_of_isAbsolute habs _)

/-- So does the compiled interface. -/
theorem isInto_abi (habs : workspace.isAbsolute = true) (c : Config) {compiled : Text}
    (h : IsNormal compiled) :
    (workspace.join c.exportDir).IsInto (workspace.join (c.abiDir.join compiled))
      [Utf8.encode "abi", Utf8.encode compiled] :=
  (goesInto_abi workspace c h).isInto (Path.isAbsolute_join_of_isAbsolute habs _)

/-! ## An interface that is found -/

/-- The path of the contract of an interface, seen from the workspace. -/
def contractPath (c : Config) (ns : List Text) : Path := c.contractsDir.join (slashed ns)

/-- The compiler's output for an interface. -/
def artifactPath (workspace : Path) (c : Config) (file name : Text) : Path :=
  ((workspace.join c.outDir).join file).join (name ++ ".json")

/-- The path of the compiled interface of a name. -/
def abiPath (workspace : Path) (c : Config) (name : Text) : Path :=
  workspace.join (c.abiDir.join (name ++ ".json"))

/-- The source of an interface, relocated. -/
def relocatedSource (c : Config) (table : Import.Table) (ns : List Text) (source : Text) :
    Import.Relocated :=
  Import.relocateSource source (interfacePath c ns) table c.layout

/-- What an export reports of an interface. -/
def reportOf (c : Config) (ns : List Text) (name : Text) (relocated : Import.Relocated) :
    ExportedInterface where
  name := name
  source := interfacePath c ns
  contract := c.contractsDir.join (slashed ns)
  abi := c.abiDir.join (name ++ ".json")
  rewrittenImports := relocated.rewrittenLines

/-- The file name of an interface is the last of its names. -/
theorem fileName_interfacePath (c : Config) (hns : ∀ n ∈ ns, IsNormal n) {n : Text}
    (hlast : ns.getLast? = some n) : (interfacePath c ns).fileName = some n := by
  obtain ⟨front, rfl⟩ := List.getLast?_eq_some_iff.1 hlast
  rw [interfacePath, Path.fileName, Path.components_join_names c.interfacesDir hns,
    Path.names_append, ← List.append_assoc]
  simp

/-- So it is exported under the stem of that name. -/
theorem interfaceName_interfacePath (c : Config) (hns : ∀ n ∈ ns, IsNormal n) {n : Text}
    (hlast : ns.getLast? = some n) :
    Import.interfaceName (interfacePath c ns) = some (Path.stemOf n) := by
  rw [Import.interfaceName, Path.fileStem, fileName_interfacePath c hns hlast]
  rfl

/-- An interface that is found is exported in six steps. -/
theorem interfaceScript_eq (workspace : Path) (c : Config) (table : Import.Table)
    (hns : ∀ n ∈ ns, IsNormal n) {n : Text} (hlast : ns.getLast? = some n) :
    interfaceScript workspace c table (interfacePath c ns) = (do
      let source ← .once (readSource (workspace.join (interfacePath c ns)))
      .once (makeParent (workspace.join (contractPath c ns)))
      .once (writeFile (workspace.join (contractPath c ns))
        (relocatedSource c table ns source).text)
      .once (requireArtifact (Path.stemOf n) (artifactPath workspace c n (Path.stemOf n)))
      .once (makeParent (abiPath workspace c (Path.stemOf n)))
      .once (copyContents (artifactPath workspace c n (Path.stemOf n))
        (abiPath workspace c (Path.stemOf n)))
      return reportOf c ns (Path.stemOf n) (relocatedSource c table ns source)) := by
  have hcontract : c.contractsDir.join (((interfacePath c ns).stripPrefix c.interfacesDir).getD
      (interfacePath c ns)) = contractPath c ns :=
    congrArg c.contractsDir.join (relative_of_names c hns)
  rw [interfaceScript, hcontract, interfaceName_interfacePath c hns hlast,
    fileName_interfacePath c hns hlast]
  rfl

end Export

end InterfacePackage
