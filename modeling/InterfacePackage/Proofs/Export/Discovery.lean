import InterfacePackage.Proofs.Export.Contract

/-!
# Interfaces discovered

Listing the interfaces of a directory finds every file below it that is kept, whatever the directory
is spelled like, and each of them has a contract of its own. The one thing that stands in the way is
a directory further down that cannot be entered because its path has become too long; then listing
fails. Main statement: `filesWhere_mirrors`.
-/

namespace InterfacePackage

namespace FileTree

variable {t : FileTree} {here p : Place} {names : List Name}

/-- A tree as paths of text can name all of it: proper, without links, and with text for names. -/
structure IsPlain (t : FileTree) : Prop where
  proper : t.IsProper
  linkless : t.IsLinkless
  text : ∀ p n, t.entryAt (p ++ [n]) ≠ none → ∃ text, n = Utf8.encode text

/-- A tree is plain if all that it lists has text for its name, besides. -/
theorem isPlain_iff : t.IsPlain ↔ t.IsProper ∧ t.IsLinkless ∧
    ∀ x ∈ t.below [], (Utf8.decode (x.1.getLast?.getD [])).isSome = true := by
  constructor
  · rintro ⟨hproper, hlinks, htext⟩
    refine ⟨hproper, hlinks, ?_⟩
    rintro ⟨q, e⟩ hmem
    obtain ⟨hbelow, hentry⟩ := mem_below_iff.1 hmem
    have hne : q ≠ [] := by
      rintro rfl
      simp at hbelow
    obtain ⟨above, n, rfl, -⟩ := hproper.sound.exists_parent hne (by simp [hentry])
    obtain ⟨text, rfl⟩ := htext above n (by simp [hentry])
    rw [List.getLast?_concat]
    exact Option.isSome_iff_exists.2 ⟨text, Utf8.decode_encode text⟩
  · rintro ⟨hproper, hlinks, hlisted⟩
    refine ⟨hproper, hlinks, fun p n hsome => ?_⟩
    obtain ⟨e, hentry⟩ := Option.ne_none_iff_exists'.1 hsome
    have hlast := hlisted (p ++ [n], e) (mem_below_iff.2 ⟨isBelow_append [] (by simp), hentry⟩)
    rw [List.getLast?_concat] at hlast
    obtain ⟨text, htext⟩ := Option.isSome_iff_exists.1 hlast
    exact ⟨text, (Utf8.encode_of_decode htext).symm⟩

instance (t : FileTree) : Decidable t.IsPlain := decidable_of_iff _ isPlain_iff.symm

/-- What stands below a place in a plain tree stands under normal names. -/
theorem IsPlain.exists_normal (h : t.IsPlain) (hsome : t.entryAt (p ++ names) ≠ none) :
    ∃ ns : List Text, names = ns.map Utf8.encode ∧ ∀ n ∈ ns, IsNormal n := by
  induction names generalizing p with
  | nil => exact ⟨[], rfl, nofun⟩
  | cons name names ih =>
    have hfirst : t.entryAt (p ++ [name]) ≠ none := fun hnone =>
      hsome (h.proper.sound.none_beyond hnone names)
    obtain ⟨n, rfl⟩ := h.text p name hfirst
    obtain ⟨ns, rfl, hns⟩ := @ih (p ++ [Utf8.encode n]) (by rwa [List.append_assoc])
    have hn := isName_encode_iff.1 (h.proper.named p _ hfirst)
    exact ⟨n :: ns, rfl, List.forall_mem_cons.2 ⟨hn, hns⟩⟩

/-- Every directory below another one can be entered: its path, spelled from the root of a walk, is
not too long. -/
def EntersAll (t : FileTree) (root : Path) (here : Place) : Prop :=
  ∀ names, names ≠ [] → t.entryAt (here ++ names) = some .directory → fits root names = true

/-- To tell that, the directories that a tree lists are gone through. -/
theorem entersAll_iff {root : Path} : t.EntersAll root here ↔
    ∀ x ∈ t.below here, x.2 = .directory → fits root (x.1.drop here.length) = true := by
  constructor
  · rintro h ⟨q, e⟩ hmem (rfl : e = .directory)
    obtain ⟨hbelow, hentry⟩ := mem_below_iff.1 hmem
    obtain ⟨n, rest, rfl⟩ := isBelow_iff.1 hbelow
    rw [List.drop_left]
    exact h _ (List.cons_ne_nil n rest) hentry
  · intro h names hne hentry
    have hfits := h (here ++ names, .directory)
      (mem_below_iff.2 ⟨isBelow_append here hne, hentry⟩) rfl
    rwa [List.drop_left] at hfits

instance (t : FileTree) (root : Path) (here : Place) : Decidable (t.EntersAll root here) :=
  decidable_of_iff _ entersAll_iff.symm

end FileTree

namespace Export

open FileTree

variable {t : FileTree} {workspace interfacesDir : Path} {here : Place} {keep : Path → Bool}

/-! ## Listing -/

/-- Listing a directory of a plain tree fails only at a directory further down that cannot be
entered. -/
theorem filesWhere_error (ht : t.IsPlain)
    (hlookup : t.lookup (workspace.join interfacesDir) = .ok (here, .directory)) {e : Failure}
    (h : filesWhere t workspace interfacesDir keep = .error e) :
    ∃ names, names ≠ [] ∧ t.entryAt (here ++ names) = some .directory ∧
      fits (workspace.join interfacesDir) names = false ∧
      e = .enumeration (workspace.join interfacesDir) (.access names .nameTooLong) := by
  have hwalk := files_eq_flatMap ht.linkless
    (lookupLink_of_lookup ht.proper.sound ht.linkless hlookup) hlookup
  unfold filesWhere at h
  dsimp only at h
  cases hkept : (t.files (workspace.join interfacesDir)).mapM
      (keepFile (workspace.join interfacesDir) interfacesDir keep) with
  | ok kept =>
    rw [hkept] at h
    cases h
  | error e' =>
    rw [hkept] at h
    cases h
    obtain ⟨x, hx, hfailed⟩ := exists_of_mapM_eq_error hkept
    rw [hwalk] at hx
    cases x with
    | error fault =>
      obtain ⟨names, hne, hentry, hfits, rfl⟩ := error_mem_flatMap_found_iff.1 hx
      cases hfailed
      exact ⟨names, hne, hentry, hfits, rfl⟩
    | ok names =>
      -- a file that is found has normal names, so its path is below the root
      obtain ⟨-, content, hfile⟩ := (mem_flatMap_found_iff ht.linkless).1 hx
      obtain ⟨ns, rfl, hns⟩ := @IsPlain.exists_normal t here names ht (by simp [hfile])
      rw [keepFile_names _ _ _ hns] at hfailed
      cases hfailed

/-- Listing a directory of a plain tree succeeds exactly if all directories below can be entered. -/
theorem filesWhere_isOk_iff (keep : Path → Bool) (ht : t.IsPlain)
    (hlookup : t.lookup (workspace.join interfacesDir) = .ok (here, .directory)) :
    (∃ files, filesWhere t workspace interfacesDir keep = .ok files) ↔
      t.EntersAll (workspace.join interfacesDir) here := by
  have hwalk := files_eq_flatMap ht.linkless
    (lookupLink_of_lookup ht.proper.sound ht.linkless hlookup) hlookup
  constructor
  · rintro ⟨files, hfiles⟩ names hne hentry
    obtain ⟨relatives, -, hfound, -⟩ := filesWhere_spec ht.proper hfiles
    by_contra hfits
    rw [Bool.not_eq_true] at hfits
    have hfault := error_mem_flatMap_found_iff.2 ⟨names, hne, hentry, hfits, rfl⟩
    rw [← hwalk, hfound, List.mem_map] at hfault
    obtain ⟨ns, -, hsame⟩ := hfault
    cases hsame
  · intro hall
    cases hfiles : filesWhere t workspace interfacesDir keep with
    | ok files => exact ⟨files, rfl⟩
    | error e =>
      obtain ⟨names, hne, hentry, hfits, -⟩ := filesWhere_error ht hlookup hfiles
      rw [hall names hne hentry] at hfits
      cases hfits

/-- Enumeration is complete and mirrors safely. In a tree without links and with text for names, and
with an interfaces directory spelled in any way, every file below it whose relative path is kept is
listed under that path once and nothing else is, in the order of components, and so are the
contracts, one for each; unless some directory below takes too long a path to be entered, at which
listing fails. -/
theorem filesWhere_mirrors (ht : t.IsPlain) {c : Config}
    (hlookup : t.lookup (workspace.join c.interfacesDir) = .ok (here, .directory))
    (keep : Path → Bool) :
    (t.EntersAll (workspace.join c.interfacesDir) here → ∃ interfaces : List (List Text),
      filesWhere t workspace c.interfacesDir keep = .ok (interfaces.map (interfacePath c)) ∧
      (∀ ns, ns ∈ interfaces ↔
        ns ≠ [] ∧ IsFile (t.entryAt (here ++ ns.map Utf8.encode)) ∧ keep (slashed ns) = true) ∧
      (interfaces.map (interfacePath c)).Pairwise (fun a b => a.compare b = .lt) ∧
      (interfaces.map (contractPath c)).Pairwise (fun a b => a.compare b = .lt) ∧
      ∀ ns ∈ interfaces, IsMirrored workspace c ns) ∧
    (¬ t.EntersAll (workspace.join c.interfacesDir) here →
      ∃ names, names ≠ [] ∧ t.entryAt (here ++ names) = some .directory ∧
        fits (workspace.join c.interfacesDir) names = false ∧
        filesWhere t workspace c.interfacesDir keep
          = .error
            (.enumeration (workspace.join c.interfacesDir) (.access names .nameTooLong))) := by
  constructor
  · intro hall
    obtain ⟨files, hfiles⟩ := (filesWhere_isOk_iff keep ht hlookup).2 hall
    obtain ⟨relatives, interfaces, hfound, rfl, hnormal, hkept, hsorted⟩ :=
      filesWhere_listing ht.proper hfiles
    obtain ⟨there, e, hthere, -, hbelow, hself⟩ := relatives_spec ht.proper ht.linkless hfound
    rw [hlookup] at hthere
    cases hthere
    have hmem : ∀ ns : List Text, ns ∈ relatives ↔
        ns ≠ [] ∧ IsFile (t.entryAt (here ++ ns.map Utf8.encode)) := by
      intro ns
      by_cases hne : ns = []
      · -- the walk starts at a directory, so it does not find its own start
        subst hne
        exact ⟨fun hns => absurd rfl (hself hns), fun hns => absurd rfl hns.1⟩
      · rw [hbelow ns hne, and_iff_right hne]
    refine ⟨interfaces, hfiles, fun ns => by rw [hkept, hmem, and_assoc], ?_, ?_, ?_⟩
    · rw [List.pairwise_map]
      exact hsorted
    · rw [List.pairwise_map]
      refine hsorted.imp_of_mem fun {ns ms} hns hms hlt => ?_
      rwa [contractPath, contractPath,
        Path.compare_join_names _ c.interfacesDir (hnormal ns hns) (hnormal ms hms)]
    · intro ns hns
      exact isMirrored workspace c (hnormal ns hns) ((hmem ns).1 ((hkept ns).1 hns).1).1
  · intro hnot
    cases hfiles : filesWhere t workspace c.interfacesDir keep with
    | ok files => exact absurd ((filesWhere_isOk_iff keep ht hlookup).1 ⟨files, hfiles⟩) hnot
    | error e =>
      obtain ⟨names, hne, hentry, hfits, rfl⟩ := filesWhere_error ht hlookup hfiles
      exact ⟨names, hne, hentry, hfits, rfl⟩

/-- A project in `/ws` with one interface in a directory and another one beside it, whose name goes
on from that of the directory by a character that comes before the slash. -/
def spreadProject : FileTree :=
  [(["ws"], Entry.directory),
    (["ws", "solidity"], .directory),
    (["ws", "solidity", "interfaces"], .directory),
    (["ws", "solidity", "interfaces", "a"], .directory),
    (["ws", "solidity", "interfaces", "a", "B.sol"], .file []),
    (["ws", "solidity", "interfaces", "a-b.sol"], .file []),
    (["ws", "solidity", "interfaces", "notes.md"], .file [])].foldl
    (fun t x => t.put (x.1.map fun n : String => Utf8.encode n.toList) x.2) ⟨∅, []⟩

/-- The place of its interfaces. -/
def spreadInterfaces : Place := [Utf8.encode "ws", Utf8.encode "solidity", Utf8.encode "interfaces"]

/-- Spelled with dots, a step up and more slashes than needed, the directory of the interfaces gives
both of them, each with its contract. -/
theorem filesWhere_mirrors_spreadProject :
    filesWhere spreadProject "/ws" "./solidity//interfaces/a/../"
        (fun p => p.getLast? = some 'l')
      = .ok ["./solidity//interfaces/a/../a/B.sol", "./solidity//interfaces/a/../a-b.sol"] ∧
    IsMirrored "/ws" { Config.standard with interfacesDir := "./solidity//interfaces/a/../" }
      ["a", "B.sol"] := by
  have hplain : spreadProject.IsPlain := by decide +kernel
  have hlookup : spreadProject.lookup
      (Path.join "/ws" "./solidity//interfaces/a/../") = .ok (spreadInterfaces, .directory) := by
    decide +kernel
  have henters : spreadProject.EntersAll
      (Path.join "/ws" "./solidity//interfaces/a/../") spreadInterfaces := by decide +kernel
  obtain ⟨interfaces, -, hmem, -, -, hmirrored⟩ := (@filesWhere_mirrors spreadProject "/ws"
    spreadInterfaces hplain
    { Config.standard with interfacesDir := "./solidity//interfaces/a/../" } hlookup
    fun p => p.getLast? = some 'l').1 henters
  refine ⟨?_, hmirrored _ ((hmem _).2 ⟨by decide, ⟨[], by decide +kernel⟩, by decide⟩)⟩
  rw [filesWhere_eq]
  decide +kernel

/-! ## Paths that are too long -/

/-- Every slash is one byte. -/
theorem length_encode_slashes (k : Nat) : (Utf8.encode (List.replicate k '/')).length = k := by
  induction k with
  | zero => rfl
  | succ k ih =>
    rw [List.replicate_succ, Utf8.encode_cons, List.length_append, ih]
    exact Nat.add_comm 1 k

/-- A directory is found under its path with slashes at the end, as many as there is room for. -/
theorem lookup_append_slashes (ht : t.IsSound) {p : Path}
    (hlookup : t.lookup p = .ok (here, .directory)) {k : Nat}
    (hlength : (Utf8.encode p).length + k ≤ pathLimit) :
    t.lookup (p ++ List.replicate k '/') = .ok (here, .directory) := by
  obtain ⟨hdenotes, hentry, hvet⟩ := denotes_of_lookup ht hlookup
  obtain ⟨hzero, -, hne⟩ := vet_eq_ok_iff.1 hvet
  refine lookup_of_denotes ht (vet_eq_ok_iff.2 ⟨?_, ?_, ?_⟩) ?_ hentry
  · rw [List.mem_append, not_or, List.mem_replicate]
    exact ⟨hzero, by simp⟩
  · rw [Utf8.encode_append, List.length_append, length_encode_slashes]
    exact hlength
  · exact List.append_ne_nil_of_left_ne_nil hne _
  · rwa [Denotes, startOf, Path.isAbsolute_append hne, Path.route, Path.pieces_append_slashes]

/-- A path that can be looked up with a name behind it has room for that name. -/
theorem length_add_le_of_fits {root : Path} {n : Name} (h : fits root [n] = true) :
    (Utf8.encode root).length + n.length ≤ pathLimit := by
  have hopen : (Utf8.encode root).length ≤ (Utf8.encode (root.join [])).length := by
    unfold Path.join
    split
    · rename_i habsolute
      cases habsolute
    · split <;> rw [Utf8.encode_append, List.length_append] <;> exact Nat.le_add_right _ _
  have hfits : (Utf8.encode (root.join [])).length + n.length ≤ pathLimit := of_decide_eq_true h
  omega

/-- The path of the interfaces from the workspace, with so many slashes at its end that nothing can
be written behind them. -/
def slashedInterfaces : Path := "solidity/interfaces" ++ List.replicate 4072 '/'

/-- Spelled like that it is a directory with an interface below, and listing it fails. -/
theorem filesWhere_stops_spreadProject :
    spreadProject.IsPlain ∧
      spreadProject.lookup (Path.join "/ws" slashedInterfaces)
        = .ok (spreadInterfaces, .directory) ∧
      IsFile (spreadProject.entryAt (spreadInterfaces ++ [Utf8.encode "a", Utf8.encode "B.sol"])) ∧
      ∀ files, filesWhere spreadProject "/ws" slashedInterfaces (fun _ => true) ≠ .ok files := by
  have hplain : spreadProject.IsPlain := by decide +kernel
  have hjoin : Path.join "/ws" slashedInterfaces
      = "/ws/solidity/interfaces".toList ++ List.replicate 4072 '/' := rfl
  have hlookup : spreadProject.lookup (Path.join "/ws" slashedInterfaces)
      = .ok (spreadInterfaces, .directory) := by
    rw [hjoin]
    exact lookup_append_slashes hplain.proper.sound (by decide +kernel) (by decide +kernel)
  refine ⟨hplain, hlookup, ⟨[], by decide +kernel⟩, fun files hfiles => ?_⟩
  have hall := (filesWhere_isOk_iff _ hplain hlookup).1 ⟨files, hfiles⟩
  have hfits := hall [Utf8.encode "a"] (by decide) (by decide +kernel)
  -- the path has no room for a single character more
  have hlength : (Utf8.encode (Path.join "/ws" slashedInterfaces)).length = pathLimit := by
    rw [hjoin, Utf8.encode_append, List.length_append, length_encode_slashes]
    decide
  have hroom := length_add_le_of_fits hfits
  rw [hlength] at hroom
  exact absurd hroom (by decide)

end Export

end InterfacePackage
