import InterfacePackage.Proofs.Export.Listing
import InterfacePackage.Proofs.Path.Order

/-!
# The interfaces of a project

In a tree without links the interfaces that are found are exactly the files below their directory
that the pattern matches, each of them once and in the order of their paths. Main statement:
`findInterfaces_ok`.
-/

namespace InterfacePackage.Export

open FileTree

variable {t : FileTree} {workspace : Path} {c : Config} {here : Place}

/-- The names under which an interface lies below a directory: there is a regular file, and the
pattern matches its path from there. -/
structure IsInterface (t : FileTree) (here : Place) (pattern : Text) (ns : List Text) : Prop where
  below : ns ≠ []
  file : IsFile (t.entryAt (here ++ ns.map Utf8.encode))
  matched : ∃ tokens, Glob.tokens pattern = .ok tokens ∧
    Glob.isMatch tokens (Utf8.encode (slashed ns)) = true

/-- All interfaces of a project, each once and in the order of their paths. No file among which they
are looked for has a name that is not text. -/
structure IsListing (t : FileTree) (c : Config) (here : Place) (interfaces : List (List Text)) :
    Prop where
  text : ∀ names, names ≠ [] → IsFile (t.entryAt (here ++ names)) →
    ∃ ns : List Text, names = ns.map Utf8.encode
  mem : ∀ ns, ns ∈ interfaces ↔ IsInterface t here c.interfacesGlob ns
  sorted : interfaces.Pairwise fun ns ms =>
    (interfacePath c ns).compare (interfacePath c ms) = .lt

/-- Interfaces in the order of their paths are different. -/
theorem nodup_of_sorted {interfaces : List (List Text)}
    (h : interfaces.Pairwise fun ns ms =>
      (interfacePath c ns).compare (interfacePath c ms) = .lt) : interfaces.Nodup :=
  h.imp fun hlt heq => by
    rw [heq, Path.compare_self] at hlt
    cases hlt

/-- An interface that is listed has a last name, if the directory itself is not listed. -/
theorem exists_getLast? {interfaces : List (List Text)} {ns : List Text}
    (hnames : [] ∉ interfaces) (hns : ns ∈ interfaces) : ∃ n, ns.getLast? = some n :=
  ⟨_, List.getLast?_eq_some_getLast fun hnil => hnames (hnil ▸ hns)⟩

/-- Names are told apart by their bytes. -/
theorem map_encode_injective {ns ms : List Text} (h : ns.map Utf8.encode = ms.map Utf8.encode) :
    ns = ms :=
  (List.map_inj_right fun _ _ => Utf8.encode_injective).1 h

/-- What a walk without links finds, if all of it is text. -/
theorem relatives_spec (ht : t.IsProper) (hlinks : t.IsLinkless) {root : Path}
    {relatives : List (List Text)}
    (hfiles : t.files root = relatives.map fun ns => .ok (ns.map Utf8.encode)) :
    ∃ here e, t.lookup root = .ok (here, e) ∧
      (∀ names, names ≠ [] → IsFile (t.entryAt (here ++ names)) →
        ∃ ns : List Text, names = ns.map Utf8.encode) ∧
      (∀ ns, ns ≠ [] → (ns ∈ relatives ↔ IsFile (t.entryAt (here ++ ns.map Utf8.encode)))) ∧
      ([] ∈ relatives → e ≠ .directory) := by
  have hall : t.files root = (relatives.map fun ns => ns.map Utf8.encode).map .ok := by
    rw [hfiles, List.map_map]
    rfl
  have hmem : ∀ ns : List Text, ns ∈ relatives ↔
      ns.map Utf8.encode ∈ relatives.map fun ns => ns.map Utf8.encode := by
    intro ns
    refine ⟨fun hns => List.mem_map_of_mem hns, fun hns => ?_⟩
    obtain ⟨ms, hms, heq⟩ := List.mem_map.1 hns
    exact map_encode_injective heq ▸ hms
  obtain ⟨here, e, hlookup⟩ := exists_lookup_of_files hall
  refine ⟨here, e, hlookup, ?_⟩
  by_cases he : e = .directory
  · subst he
    refine ⟨fun names hnames hfile => ?_, fun ns hns => ?_, fun hnil => ?_⟩
    · obtain ⟨ns, -, hns⟩ :=
        List.mem_map.1 ((files_of_linkless hlinks hall hlookup).2 ⟨hnames, hfile⟩)
      exact ⟨ns, hns.symm⟩
    · rw [hmem, files_of_linkless hlinks hall hlookup]
      simp [hns]
    · have hself := (files_of_linkless hlinks hall hlookup).1 ((hmem []).1 hnil)
      exact absurd rfl hself.1
  · -- below something that is no directory there is nothing
    obtain ⟨-, hentry, -⟩ := denotes_of_lookup ht.sound hlookup
    have hnone : ∀ names, names ≠ [] → ¬ IsFile (t.entryAt (here ++ names)) := by
      rintro names hnames ⟨content, hfile⟩
      rw [ht.sound.none_below (by simpa [hentry] using he) (isBelow_append here hnames)] at hfile
      cases hfile
    have hrelatives : relatives = [[]] := by
      have hmapped := files_of_other hall hlookup he
      exact (List.map_inj_right fun _ _ => map_encode_injective).1 hmapped
    subst hrelatives
    refine ⟨fun names hnames hfile => ?_, fun ns hns => ?_, fun _ => he⟩
    · exact absurd hfile (hnone names hnames)
    · refine ⟨fun h => absurd (List.mem_singleton.1 h) hns, fun hfile => ?_⟩
      exact absurd hfile (hnone _ (by simpa using hns))

/-- Paths that differ and are in order one after the other are so strictly. -/
theorem pairwise_lt_of_sorted (c : Config) {interfaces : List (List Text)}
    (hnormal : ∀ ns ∈ interfaces, ∀ n ∈ ns, IsNormal n) (hnodup : interfaces.Nodup)
    (hsorted : (interfaces.map (interfacePath c)).Pairwise fun a b => a.compare b ≠ .gt) :
    interfaces.Pairwise fun ns ms => (interfacePath c ns).compare (interfacePath c ms) = .lt := by
  rw [List.pairwise_map] at hsorted
  refine (hnodup.and hsorted).imp_of_mem fun {ns ms} hns hms h => ?_
  obtain ⟨hne, hgt⟩ := h
  cases hcompare : (interfacePath c ns).compare (interfacePath c ms) with
  | lt => rfl
  | eq =>
    have heq := Path.eq_of_compare_join_names c.interfacesDir (hnormal ns hns) (hnormal ms hms)
      hcompare
    exact absurd heq hne
  | gt => exact absurd hcompare hgt

/-- The files are put in order as they are inserted, which evaluates. -/
theorem filesWhere_eq (t : FileTree) (workspace interfacesDir : Path) (keep : Path → Bool) :
    filesWhere t workspace interfacesDir keep = (do
      let root := workspace.join interfacesDir
      let found ← (t.files root).mapM (keepFile root interfacesDir keep)
      return (found.filterMap id).insertionSort fun a b => a.compare b ≠ .gt) := by
  simp only [filesWhere, Path.mergeSort_compare_eq_insertionSort]

/-- The files listed are those of a walk that are kept, each of them once and in the order of their
paths. -/
theorem filesWhere_listing (ht : t.IsProper) {keep : Path → Bool} {files : List Path}
    (h : filesWhere t workspace c.interfacesDir keep = .ok files) :
    ∃ relatives interfaces : List (List Text),
      t.files (workspace.join c.interfacesDir)
        = relatives.map (fun ns => .ok (ns.map Utf8.encode)) ∧
      files = interfaces.map (interfacePath c) ∧ (∀ ns ∈ interfaces, ∀ n ∈ ns, IsNormal n) ∧
      (∀ ns, ns ∈ interfaces ↔ ns ∈ relatives ∧ keep (slashed ns) = true) ∧
      interfaces.Pairwise fun ns ms =>
        (interfacePath c ns).compare (interfacePath c ms) = .lt := by
  obtain ⟨relatives, hnormal, hfound, rfl⟩ := filesWhere_spec ht h
  let kept := relatives.filter fun ns => keep (slashed ns)
  let interfaces := kept.mergeSort fun ns ms =>
    (interfacePath c ns).compare (interfacePath c ms) ≠ .gt
  have hkept : ∀ ns, ns ∈ interfaces ↔ ns ∈ relatives ∧ keep (slashed ns) = true := fun ns => by
    rw [List.mem_mergeSort, List.mem_filter]
  -- sorting paths is sorting names by their paths
  have hfiles : interfaces.map (interfacePath c)
      = (kept.map (interfacePath c)).mergeSort fun a b => a.compare b ≠ .gt :=
    List.map_mergeSort fun _ _ _ _ => rfl
  have hnames : ∀ ns ∈ interfaces, ∀ n ∈ ns, IsNormal n := fun ns hns =>
    hnormal ns ((hkept ns).1 hns).1
  have hnodup : relatives.Nodup := by
    have hpairwise := pairwise_files ht.sound (workspace.join c.interfacesDir)
    rw [hfound, List.pairwise_map] at hpairwise
    exact hpairwise.imp fun hne heq => hne _ rfl (by rw [heq])
  refine ⟨relatives, interfaces, hfound, hfiles.symm, hnames, hkept, ?_⟩
  refine pairwise_lt_of_sorted c hnames ?_ ?_
  · exact (List.mergeSort_perm _ _).nodup_iff.2 (hnodup.filter _)
  · rw [hfiles]
    exact Path.pairwise_mergeSort_compare _

/-- The interfaces found are the files of a walk that the pattern matches, each of them once and in
the order of their paths. -/
theorem findInterfaces_spec (ht : t.IsProper) {files : List Path}
    (h : findInterfaces t workspace c.interfacesDir c.interfacesGlob = .ok files) :
    ∃ tokens, ∃ relatives interfaces : List (List Text),
      Glob.tokens c.interfacesGlob = .ok tokens ∧
      t.files (workspace.join c.interfacesDir)
        = relatives.map (fun ns => .ok (ns.map Utf8.encode)) ∧
      files = interfaces.map (interfacePath c) ∧ (∀ ns ∈ interfaces, ∀ n ∈ ns, IsNormal n) ∧
      (∀ ns, ns ∈ interfaces ↔
        ns ∈ relatives ∧ Glob.isMatch tokens (Utf8.encode (slashed ns)) = true) ∧
      interfaces.Pairwise fun ns ms =>
        (interfacePath c ns).compare (interfacePath c ms) = .lt := by
  unfold findInterfaces at h
  cases htokens : Glob.tokens c.interfacesGlob with
  | error fault =>
    rw [htokens] at h
    cases h
  | ok tokens =>
    rw [htokens] at h
    obtain ⟨relatives, interfaces, hlisting⟩ := filesWhere_listing ht h
    exact ⟨tokens, relatives, interfaces, rfl, hlisting⟩

/-- The interfaces found are all files below their directory that the pattern matches, unless what
should be their directory is itself a file and was found. -/
theorem findInterfaces_ok (ht : t.IsProper) (hlinks : t.IsLinkless) {files : List Path}
    (h : findInterfaces t workspace c.interfacesDir c.interfacesGlob = .ok files) :
    ∃ here e, ∃ interfaces : List (List Text),
      t.lookup (workspace.join c.interfacesDir) = .ok (here, e) ∧
      files = interfaces.map (interfacePath c) ∧ (∀ ns ∈ interfaces, ∀ n ∈ ns, IsNormal n) ∧
      ([] ∉ interfaces → IsListing t c here interfaces) ∧ ([] ∈ interfaces → e ≠ .directory) := by
  obtain ⟨tokens, relatives, interfaces, htokens, hfound, hfiles, hnames, hkept, hsorted⟩ :=
    findInterfaces_spec ht h
  obtain ⟨here, e, hlookup, htext, hmem, hnil⟩ := relatives_spec ht hlinks hfound
  refine ⟨here, e, interfaces, hlookup, hfiles, hnames, fun hall => ⟨htext, fun ns => ?_, hsorted⟩,
    fun hself => hnil ((hkept []).1 hself).1⟩
  constructor
  · intro hns
    have hne : ns ≠ [] := by
      rintro rfl
      exact hall hns
    obtain ⟨hrelative, hmatch⟩ := (hkept ns).1 hns
    exact ⟨hne, (hmem ns hne).1 hrelative, tokens, htokens, hmatch⟩
  · rintro ⟨hne, hfile, tokens', htokens', hmatch⟩
    rw [htokens] at htokens'
    cases htokens'
    exact (hkept ns).2 ⟨(hmem ns hne).2 hfile, hmatch⟩

end InterfacePackage.Export
