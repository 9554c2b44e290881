import InterfacePackage.Export.Interfaces
import InterfacePackage.Proofs.FileTree.Walk
import InterfacePackage.Proofs.Outcome

/-!
# The interfaces found

Every interface is spelled as the directory of the interfaces followed by the names that lead to it
on the walk, all of them normal names. Main statements: `keepFile_names` and `filesWhere_spec`.
-/

namespace InterfacePackage.Export

open FileTree

/-- The text of names with slashes between them. -/
abbrev slashed (ns : List Text) : Path := Text.join ['/'] ns

/-- The path of an interface, seen from the workspace. -/
def interfacePath (c : Config) (ns : List Text) : Path := c.interfacesDir.join (slashed ns)

variable {t : FileTree} {root interfacesDir : Path} {keep : Path → Bool}

/-- A path is below itself by no names. -/
theorem stripPrefix_self (p : Path) : p.stripPrefix p = some [] := by
  have hstarts : p.startsWith p = true := by
    rw [Path.startsWith]
    exact List.isPrefixOf_iff_prefix.2 (List.prefix_refl _)
  rw [Path.stripPrefix, if_pos hstarts, List.drop_length]
  rfl

/-- A file that a walk finds under normal names is kept if the path of these names is. -/
theorem keepFile_names (root interfacesDir : Path) (keep : Path → Bool) {ns : List Text}
    (h : ∀ n ∈ ns, IsNormal n) :
    keepFile root interfacesDir keep (.ok (ns.map Utf8.encode))
      = .ok (if keep (slashed ns) then some (interfacesDir.join (slashed ns)) else none) := by
  have hdecode : (ns.map Utf8.encode).mapM Utf8.decode = some ns := by
    rw [mapM_eq_some_iff, List.map_map]
    exact List.map_congr_left fun n _ => Utf8.decode_encode n
  have hpath : pathOf? root (ns.map Utf8.encode)
      = some (if ns = [] then root else root.join (slashed ns)) := by
    rw [pathOf?, hdecode]
    rfl
  have hrelative : (if ns = [] then root else root.join (slashed ns)).stripPrefix root
      = some (slashed ns) := by
    -- the directory itself is found when it is a file
    split
    · rename_i hnil
      rw [hnil]
      exact stripPrefix_self root
    · exact Path.stripPrefix_join_names root h
  rw [keepFile, hpath]
  dsimp only
  rw [hrelative]

/-- Names that entries have, if they are text, are normal names. -/
theorem exists_normal_of_mapM {names : List Name} {texts : List Text} (h : ∀ n ∈ names, IsName n)
    (hdecode : names.mapM Utf8.decode = some texts) :
    names = texts.map Utf8.encode ∧ ∀ n ∈ texts, IsNormal n := by
  rw [mapM_eq_some_iff] at hdecode
  -- name by name, for `mapM` succeeds only if all of them are text
  have hencode : names = texts.map Utf8.encode := by
    induction names generalizing texts with
    | nil =>
      cases texts with
      | nil => rfl
      | cons n texts => cases hdecode
    | cons name names ih =>
      cases texts with
      | nil => cases hdecode
      | cons n texts =>
        rw [List.map_cons, List.map_cons, List.cons.injEq] at hdecode
        rw [List.map_cons, Utf8.encode_of_decode hdecode.1,
          ← ih (fun m hm => h m (List.mem_cons_of_mem _ hm)) hdecode.2]
  refine ⟨hencode, fun n hn => ?_⟩
  exact isName_encode_iff.1 (h _ (by rw [hencode]; exact List.mem_map_of_mem hn))

/-- Files of a walk none of which fails are given by normal names. -/
theorem exists_normal_of_keepFile {found : List (Except WalkFault (List Name))}
    (hnames : ∀ names, .ok names ∈ found → ∀ n ∈ names, IsName n) {kept : List (Option Path)}
    (hkept : found.map (keepFile root interfacesDir keep) = kept.map .ok) :
    ∃ relatives : List (List Text), (∀ ns ∈ relatives, ∀ n ∈ ns, IsNormal n) ∧
      found = relatives.map (fun ns => .ok (ns.map Utf8.encode)) ∧
      kept.filterMap id
        = (relatives.filter fun ns => keep (slashed ns)).map fun ns =>
            interfacesDir.join (slashed ns) := by
  induction found generalizing kept with
  | nil =>
    cases kept with
    | nil => exact ⟨[], nofun, rfl, rfl⟩
    | cons k kept => cases hkept
  | cons x found ih =>
    cases kept with
    | nil => cases hkept
    | cons k kept =>
      rw [List.map_cons, List.map_cons, List.cons.injEq] at hkept
      obtain ⟨hx, hrest⟩ := hkept
      obtain ⟨relatives, hnormal, hfound, hfiles⟩ :=
        ih (fun names h => hnames names (List.mem_cons_of_mem _ h)) hrest
      cases x with
      | error fault => cases hx
      | ok names =>
        cases htexts : names.mapM Utf8.decode with
        | none =>
          have hpath : pathOf? root names = none := by
            rw [pathOf?, htexts]
            rfl
          rw [keepFile, hpath] at hx
          cases hx
        | some ns =>
          -- all of the walk is text, or listing would have failed
          obtain ⟨rfl, hns⟩ :=
            exists_normal_of_mapM (hnames names List.mem_cons_self) htexts
          rw [keepFile_names root interfacesDir keep hns, Except.ok.injEq] at hx
          refine ⟨ns :: relatives, ?_, by rw [hfound]; rfl, ?_⟩
          · intro ms hms
            rcases List.mem_cons.1 hms with rfl | hms
            · exact hns
            · exact hnormal ms hms
          · rw [← hx]
            by_cases hkeep : keep (slashed ns) = true
            · rw [if_pos hkeep, List.filter_cons, if_pos hkeep, List.map_cons, ← hfiles]
              rfl
            · rw [if_neg hkeep, List.filter_cons, if_neg hkeep, ← hfiles]
              rfl

/-- The files found are those of the walk that are kept, spelled from the directory of the
interfaces, in the order of their components. -/
theorem filesWhere_spec (ht : t.IsProper) {workspace : Path} {files : List Path}
    (h : filesWhere t workspace interfacesDir keep = .ok files) :
    ∃ relatives : List (List Text), (∀ ns ∈ relatives, ∀ n ∈ ns, IsNormal n) ∧
      t.files (workspace.join interfacesDir)
        = relatives.map (fun ns => .ok (ns.map Utf8.encode)) ∧
      files = ((relatives.filter fun ns => keep (slashed ns)).map fun ns =>
        interfacesDir.join (slashed ns)).mergeSort fun a b => a.compare b ≠ .gt := by
  unfold filesWhere at h
  dsimp only at h
  cases hkept : (t.files (workspace.join interfacesDir)).mapM
      (keepFile (workspace.join interfacesDir) interfacesDir keep) with
  | error e =>
    rw [hkept] at h
    cases h
  | ok kept =>
    rw [hkept] at h
    cases h
    obtain ⟨relatives, hnormal, hfound, hfiles⟩ := exists_normal_of_keepFile
      (fun names hmem => isName_of_mem_files ht hmem) (mapM_eq_ok_iff.1 hkept)
    exact ⟨relatives, hnormal, hfound, by rw [hfiles]⟩

/-- An interface is spelled as its directory followed by normal names. -/
theorem exists_normal_of_mem_findInterfaces (ht : t.IsProper) {workspace : Path} {pattern : Text}
    {files : List Path} (h : findInterfaces t workspace interfacesDir pattern = .ok files)
    {file : Path} (hfile : file ∈ files) :
    ∃ ns : List Text, (∀ n ∈ ns, IsNormal n) ∧ file = interfacesDir.join (slashed ns) := by
  unfold findInterfaces at h
  cases htokens : Glob.tokens pattern with
  | error fault =>
    rw [htokens] at h
    cases h
  | ok tokens =>
    rw [htokens] at h
    obtain ⟨relatives, hnormal, -, rfl⟩ := filesWhere_spec ht h
    rw [List.mem_mergeSort, List.mem_map] at hfile
    obtain ⟨ns, hns, rfl⟩ := hfile
    exact ⟨ns, hnormal ns (List.mem_filter.1 hns).1, rfl⟩

end InterfacePackage.Export
