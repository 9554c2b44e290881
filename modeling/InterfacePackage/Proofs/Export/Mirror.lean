import InterfacePackage.Proofs.Export.Enumeration
import InterfacePackage.Proofs.Export.Front
import Mathlib.Data.List.Forall2

/-!
# Interfaces exported side by side

How far a package has been filled, as a condition that every step of every interface keeps, in
whatever order the steps come: nothing but parts of interfaces is new, they are as they should be,
and all that was there before is unchanged. A step may rely on the others to leave the files that it
has put there, and the sources. Main statements: `Progress.paves`, `Progress.writes`,
`Progress.copies` and `advances_interfaceScript`.
-/

namespace InterfacePackage.Export

open FileTree

variable {found t t' : FileTree} {workspace : Path} {c : Config} {table : Import.Table}
  {here root : Place} {e : Entry} {interfaces : List (List Text)} {ns : List Text}
  {n source : Text} {content : Bytes} {x : ExportedInterface}

/-! ## What an interface is in a package -/

/-- The relocated source of an interface is in the package, and it is reported as it is there. -/
def IsExported (t : FileTree) (workspace : Path) (c : Config) (table : Import.Table) (here : Place)
    (ns : List Text) (x : ExportedInterface) : Prop :=
  ∃ source n, t.readText (workspace.join (interfacePath c ns)) = .ok source ∧
    ns.getLast? = some n ∧
    t.entryAt (contractPlace here ns)
      = some (.file (Utf8.encode (relocatedSource c table ns source).text)) ∧
    x = reportOf c ns (Path.stemOf n) (relocatedSource c table ns source)

/-- The compiled form of an interface is in the package, or that of another one of the same name. -/
def IsCompiled (t : FileTree) (workspace : Path) (c : Config) (here : Place)
    (interfaces : List (List Text)) (ns : List Text) : Prop :=
  ∃ other ∈ interfaces, ∃ n m content, ns.getLast? = some n ∧ other.getLast? = some m ∧
    Path.stemOf m = Path.stemOf n ∧
    t.entryAt (abiPlace here (Path.stemOf n)) = some (.file content) ∧
    t.read (artifactPath workspace c m (Path.stemOf m)) = .ok content

/-! ## Where things go -/

/-- Different interfaces have different places for their sources. -/
theorem contractPlace_inj {ns ms : List Text} (h : contractPlace here ns = contractPlace here ms) :
    ns = ms :=
  map_encode_injective (List.cons.inj (List.append_cancel_left h)).2

/-- No relocated source goes where a compiled form does. -/
theorem contractPlace_ne_abiPlace (ns : List Text) (name : Text) :
    contractPlace here ns ≠ abiPlace here name := by
  intro h
  have hfirst := (List.cons.inj (List.append_cancel_left h)).1
  exact absurd hfirst (by decide)

/-- Compiled forms of different names go to different places. -/
theorem abiPlace_inj {name other : Text} (h : abiPlace here name = abiPlace here other) :
    name = other := by
  have hlast := (List.cons.inj (List.cons.inj (List.append_cancel_left h)).2).1
  exact List.append_cancel_right (Utf8.encode_injective hlast)

/-- The compiler's output for an interface goes on from the directory of its output. -/
theorem isInto_artifact (habs : workspace.isAbsolute = true) (hn : IsNormal n) :
    (workspace.join c.outDir).IsInto (artifactPath workspace c n (Path.stemOf n))
      ([Utf8.encode n] ++ [Utf8.encode (Path.stemOf n ++ ".json")]) := by
  have hout := Path.isAbsolute_join_of_isAbsolute habs c.outDir
  have hname : IsNormal (Path.stemOf n ++ ".json") :=
    isNormal_json fun hslash => hn.2.2.2 (Path.mem_of_mem_stemOf hslash)
  exact (Path.isInto_name hout hn).trans
    (Path.isInto_name (Path.isAbsolute_join_of_isAbsolute hout n) hname)

/-- Without links it stands under its name. -/
theorem exists_of_denotes_artifact (hlinks : t.IsLinkless) (habs : workspace.isAbsolute = true)
    (hn : IsNormal n) {q : Place} (h : t.Denotes (artifactPath workspace c n (Path.stemOf n)) q) :
    ∃ above, q = above ++ [Utf8.encode (Path.stemOf n ++ ".json")] :=
  ⟨_, (h.eq_append hlinks (isInto_artifact habs hn)).trans (List.append_assoc _ _ _).symm⟩

/-- So it is in the place of a compiled form only if that has the same name. -/
theorem stemOf_eq_of_artifact (hlinks : t.IsLinkless) (habs : workspace.isAbsolute = true)
    {n other : Text} (hn : IsNormal n)
    (h : t.Denotes (artifactPath workspace c n (Path.stemOf n)) (abiPlace here other)) :
    Path.stemOf n = other := by
  obtain ⟨above, hplace⟩ := exists_of_denotes_artifact hlinks habs hn h
  rw [abiPlace, List.append_cons] at hplace
  have hlast := List.singleton_inj.1 (List.append_inj' hplace rfl).2
  exact List.append_cancel_right (Utf8.encode_injective hlast.symm)

/-! ## Before the interfaces -/

/-- A package that has been opened: its front is all there is in it. -/
structure IsOpened (found : FileTree) (workspace : Path) (c : Config) (here : Place) : Prop where
  workspace_isAbsolute : workspace.isAbsolute = true
  linkless : found.IsLinkless
  settled : Settled found (workspace.join c.exportDir) here
  front : ∀ q, isBelow here q = true → found.entryAt q ≠ none → ∃ n ∈ frontNames, q = here ++ [n]

/-- Nothing is yet where the relocated sources go. -/
theorem IsOpened.entryAt_contractPlace (h : IsOpened found workspace c here) (ns : List Text) :
    found.entryAt (contractPlace here ns) = none := by
  refine Classical.byContradiction fun hsome => ?_
  obtain ⟨n, hn, hq⟩ := h.front _ (isBelow_append here (by simp)) hsome
  have hfirst := (List.cons.inj (List.append_cancel_left hq)).1
  rw [← hfirst] at hn
  exact absurd hn (by decide)

/-- Nothing is yet where the compiled forms go. -/
theorem IsOpened.entryAt_abiPlace (h : IsOpened found workspace c here) (name : Text) :
    found.entryAt (abiPlace here name) = none := by
  refine Classical.byContradiction fun hsome => ?_
  obtain ⟨n, -, hq⟩ := h.front _ (isBelow_append here (by simp)) hsome
  cases List.append_cancel_left hq

/-- An opened package that is about to receive the interfaces of its project. -/
structure IsReady (found : FileTree) (workspace : Path) (c : Config) (here root : Place)
    (interfaces : List (List Text)) : Prop extends IsOpened found workspace c here where
  source : found.Denotes (workspace.join c.interfacesDir) root
  normal : ∀ ns ∈ interfaces, ∀ n ∈ ns, IsNormal n
  listing : IsListing found c root interfaces

/-- The source of an interface is found below the directory of the interfaces. -/
theorem IsReady.isInto_source (h : IsReady found workspace c here root interfaces)
    (hns : ns ∈ interfaces) :
    (workspace.join c.interfacesDir).IsInto (workspace.join (interfacePath c ns))
      (ns.map Utf8.encode) :=
  Path.isInto_join h.workspace_isAbsolute (Path.isAbsolute_join_names (h.normal ns hns))
    (Path.route_join_names (h.normal ns hns))

/-- It was there before the package had any interface. -/
theorem IsReady.exists_source (h : IsReady found workspace c here root interfaces)
    (ht : t.IsProper) (hlinks : t.IsLinkless) (hns : ns ∈ interfaces) {p : Place}
    (hlookup : t.lookup (workspace.join (interfacePath c ns)) = .ok (p, e)) :
    IsFile (found.entryAt p) := by
  have hroot : root = (workspace.join c.interfacesDir).route.foldl Step.move [] := by
    have hplace := Reaches.place_eq h.linkless h.source
    rwa [startOf_of_isAbsolute _
      (Path.isAbsolute_join_of_isAbsolute h.workspace_isAbsolute _)] at hplace
  have hp := (denotes_of_lookup ht.sound hlookup).1.eq_append hlinks (h.isInto_source hns)
  rw [hp, ← hroot]
  exact ((h.listing.mem ns).1 hns).file

/-- So it is not in the place of a compiled form. -/
theorem IsReady.source_ne_abiPlace (h : IsReady found workspace c here root interfaces)
    (ht : t.IsProper) (hlinks : t.IsLinkless) (hns : ns ∈ interfaces) {p : Place}
    (hlookup : t.lookup (workspace.join (interfacePath c ns)) = .ok (p, e)) (name : Text) :
    p ≠ abiPlace here name := by
  rintro rfl
  obtain ⟨content, hfile⟩ := h.exists_source ht hlinks hns hlookup
  rw [h.entryAt_abiPlace] at hfile
  cases hfile

/-- An interface's compiled form stays in the package when those of other names change. -/
theorem IsCompiled.growsBut (h : IsCompiled t workspace c here interfaces ns) {name : Text}
    (habs : workspace.isAbsolute = true) (hnormal : ∀ ms ∈ interfaces, ∀ m ∈ ms, IsNormal m)
    (hname : ∀ n, ns.getLast? = some n → Path.stemOf n ≠ name)
    (hgrows : GrowsBut t here (abiPlace here name) t') (ht : t.IsProper) (hlinks : t.IsLinkless) :
    IsCompiled t' workspace c here interfaces ns := by
  obtain ⟨other, hother, n, m, content, hn, hm, hstem, habi, hread⟩ := h
  have hne := hname n hn
  have habi' := hgrows.old _ _ (fun hplace => hne (abiPlace_inj hplace)) habi
  obtain ⟨p, hlookup⟩ := read_eq_ok_iff.1 hread
  -- an artifact of another name cannot lie where this name is laid down
  have hp : p ≠ abiPlace here name := by
    rintro rfl
    have hmNormal := hnormal other hother m (List.mem_of_getLast? hm)
    have hdenotes := (denotes_of_lookup ht.sound hlookup).1
    rw [← hstem] at hne
    exact hne (stemOf_eq_of_artifact hlinks habs hmNormal hdenotes)
  have hread' := read_eq_ok_iff.2 ⟨p, hgrows.lookup ht hlinks hlookup hp⟩
  exact ⟨other, hother, n, m, content, hn, hm, hstem, habi', hread'⟩

/-- It stays when the package grows. -/
theorem IsCompiled.grows (h : IsCompiled t workspace c here interfaces ns)
    (hgrows : Grows t here t') (ht : t.IsProper) (hlinks : t.IsLinkless) :
    IsCompiled t' workspace c here interfaces ns := by
  obtain ⟨other, hother, n, m, content, hn, hm, hstem, habi, hread⟩ := h
  exact ⟨other, hother, n, m, content, hn, hm, hstem, hgrows.old _ _ habi,
    hgrows.read ht hlinks hread⟩

/-! ## How far a package has been filled -/

/-- The places where the parts of interfaces go. -/
inductive IsTarget (here : Place) (interfaces : List (List Text)) : Place → Prop
  | contract {ns : List Text} (hns : ns ∈ interfaces) :
      IsTarget here interfaces (contractPlace here ns)
  | abi {ns : List Text} {n : Text} (hns : ns ∈ interfaces) (hlast : ns.getLast? = some n) :
      IsTarget here interfaces (abiPlace here (Path.stemOf n))

/-- How far a package has been filled: all that was found is unchanged, what is new is a part of an
interface or a directory above one, and the parts that are there are as they should be. -/
structure Progress (found : FileTree) (workspace : Path) (c : Config) (table : Import.Table)
    (here : Place) (interfaces : List (List Text)) (t : FileTree) : Prop where
  grows : Grows found here t
  new : ∀ q, found.entryAt q = none → t.entryAt q ≠ none → ∃ target,
    IsTarget here interfaces target ∧
      (q = target ∨ isBelow q target = true ∧ t.entryAt q = some .directory)
  contract : ∀ ns ∈ interfaces, ∀ content,
    t.entryAt (contractPlace here ns) = some (.file content) → ∃ source,
      t.readText (workspace.join (interfacePath c ns)) = .ok source ∧
        content = Utf8.encode (relocatedSource c table ns source).text
  compiled : ∀ ns ∈ interfaces, ∀ n, ns.getLast? = some n →
    IsFile (t.entryAt (abiPlace here (Path.stemOf n))) → IsCompiled t workspace c here interfaces ns

/-- What a step may rely on: wherever a file was found there still is one, and the sources of the
interfaces are read as before. -/
structure Upholds (workspace : Path) (c : Config) (interfaces : List (List Text))
    (t t' : FileTree) : Prop where
  file : ∀ path q content, t.lookup path = .ok (q, .file content) →
    ∃ content', t'.lookup path = .ok (q, .file content')
  source : ∀ ns ∈ interfaces, ∀ source,
    t.readText (workspace.join (interfacePath c ns)) = .ok source →
      t'.readText (workspace.join (interfacePath c ns)) = .ok source

instance : IsPreorder FileTree (Upholds workspace c interfaces) where
  refl _ := ⟨fun _ _ content h => ⟨content, h⟩, fun _ _ _ h => h⟩
  trans _ _ _ h h' := by
    refine ⟨fun path q content hfile => ?_, fun ns hns source hread =>
      h'.source ns hns source (h.source ns hns source hread)⟩
    obtain ⟨content', hfile'⟩ := h.file path q content hfile
    exact h'.file path q content' hfile'

/-- Growing upholds all of it. -/
theorem Upholds.of_grows (h : Grows t here t') (ht : t.IsProper) (hlinks : t.IsLinkless) :
    Upholds workspace c interfaces t t' where
  file _ _ content hfile := ⟨content, h.lookup ht hlinks hfile⟩
  source _ _ _ hread := h.readText ht hlinks hread

section

variable (hready : IsReady found workspace c here root interfaces)

include hready

/-- A source is read as before when compiled forms change. -/
theorem IsReady.readText_growsBut {name : Text} (hns : ns ∈ interfaces) (ht : t.IsProper)
    (hlinks : t.IsLinkless) (hgrows : GrowsBut t here (abiPlace here name) t')
    (hread : t.readText (workspace.join (interfacePath c ns)) = .ok source) :
    t'.readText (workspace.join (interfacePath c ns)) = .ok source := by
  obtain ⟨p, content, hlookup, hdecode⟩ := readText_eq_ok_iff.1 hread
  have hp := hready.source_ne_abiPlace ht hlinks hns hlookup name
  exact readText_eq_ok_iff.2 ⟨p, content, hgrows.lookup ht hlinks hlookup hp, hdecode⟩

/-- A compiled form that is put in its place upholds all of it. -/
theorem IsReady.upholds {name : Text} (ht : t.IsProper) (hlinks : t.IsLinkless)
    (hputs : Puts t (abiPlace here name) (.file content) t') :
    Upholds workspace c interfaces t t' := by
  have hfills := hputs.fills ht (isBelow_append here (by simp)) (not_isLink_file content)
  have hgrows : GrowsBut t here (abiPlace here name) t' :=
    ⟨hfills, fun q e hq hentry => by rwa [hputs.entryAt_of_ne hq]⟩
  refine ⟨fun path q bytes hfile => ?_, fun ns hns source hread =>
    hready.readText_growsBut hns ht hlinks hgrows hread⟩
  by_cases hq : q = abiPlace here name
  · exact ⟨content, hfills.lookup_file ht hfile (hq ▸ hputs.entryAt_self)⟩
  · exact ⟨bytes, hgrows.lookup ht hlinks hfile hq⟩

/-- Before the first step. -/
theorem IsReady.progress : Progress found workspace c table here interfaces found where
  grows := .refl hready.settled.proper here
  new q hnone hsome := absurd hnone hsome
  contract ns _ content hfile := by
    rw [hready.entryAt_contractPlace] at hfile
    cases hfile
  compiled ns _ n _ hfile := by
    obtain ⟨content, hcontent⟩ := hfile
    rw [hready.entryAt_abiPlace] at hcontent
    cases hcontent

end

namespace Progress

variable (h : Progress found workspace c table here interfaces t)

include h

/-- What has been filled is proper and without links, like what was found. -/
theorem proper : t.IsProper := h.grows.fills.proper

theorem isLinkless (hready : IsReady found workspace c here root interfaces) : t.IsLinkless :=
  h.grows.fills.isLinkless hready.linkless

theorem settled (hready : IsReady found workspace c here root interfaces) :
    Settled t (workspace.join c.exportDir) here :=
  hready.settled.fills h.grows.fills

/-- Where nothing was found, what has stood there before is not in the way of a target that is
new. -/
theorem new_of_entry {target : Place} (htarget : IsTarget here interfaces target)
    (hentry : ∀ q, t'.entryAt q = t.entryAt q ∨
      q = target ∨ isBelow q target = true ∧ t'.entryAt q = some .directory) {q : Place}
    (hnone : found.entryAt q = none) (hsome : t'.entryAt q ≠ none) : ∃ target,
      IsTarget here interfaces target ∧
        (q = target ∨ isBelow q target = true ∧ t'.entryAt q = some .directory) := by
  rcases hentry q with hsame | hnew
  · rw [hsame] at hsome ⊢
    exact h.new q hnone hsome
  · exact ⟨target, htarget, hnew⟩

/-- The way to a part of an interface is paved. -/
theorem paves (hready : IsReady found workspace c here root interfaces) {target : Place}
    (htarget : IsTarget here interfaces target) (hpaves : Paves t here target t') :
    Progress found workspace c table here interfaces t' := by
  have hgrows := hpaves.grows
  have hlinks := h.isLinkless hready
  -- what is new is a directory, and so none of the files has changed
  have hold : ∀ q content, t'.entryAt q = some (.file content) →
      t.entryAt q = some (.file content) := fun q content hq => by
    rw [hpaves.entryAt_eq (by simp [hq]), hq]
  refine ⟨h.grows.trans hgrows, fun q hnone hsome => h.new_of_entry htarget ?_ hnone hsome, ?_, ?_⟩
  · exact fun q => (hpaves.entry q).imp_right fun hnew => .inr ⟨hnew.1.2, hnew.2.2⟩
  · intro ns hns content hfile
    obtain ⟨source, hread, hcontent⟩ := h.contract ns hns content (hold _ _ hfile)
    exact ⟨source, hgrows.readText h.proper hlinks hread, hcontent⟩
  · rintro ns hns n hlast ⟨content, hfile⟩
    exact (h.compiled ns hns n hlast ⟨content, hold _ _ hfile⟩).grows hgrows h.proper hlinks

/-- A relocated source is written in its place. If the same has been written there before, nothing
changes. -/
theorem writes (hready : IsReady found workspace c here root interfaces) (hns : ns ∈ interfaces)
    (hread : t.readText (workspace.join (interfacePath c ns)) = .ok source)
    (hputs : Puts t (contractPlace here ns)
      (.file (Utf8.encode (relocatedSource c table ns source).text)) t') :
    Grows t here t' ∧ Progress found workspace c table here interfaces t' := by
  have hlinks := h.isLinkless hready
  have hgrows : Grows t here t' := by
    refine hputs.grows h.proper (isBelow_append here (by simp)) fun e hentry => ?_
    rcases hputs.old with hnone | ⟨content, hfile⟩
    · rw [hnone] at hentry
      cases hentry
    · obtain ⟨source', hread', hcontent⟩ := h.contract ns hns content hfile
      rw [hread] at hread'
      cases hread'
      rw [hfile] at hentry
      cases hentry
      rw [hcontent]
  refine ⟨hgrows, h.grows.trans hgrows, fun q hnone hsome =>
    h.new_of_entry (.contract hns) ?_ hnone hsome, ?_, ?_⟩
  · intro q
    by_cases hq : q = contractPlace here ns
    · exact .inr (.inl hq)
    · exact .inl (hputs.entryAt_of_ne hq)
  · intro ms hms content hfile
    by_cases hsame : ms = ns
    · subst hsame
      rw [hputs.entryAt_self] at hfile
      cases hfile
      exact ⟨source, hgrows.readText h.proper hlinks hread, rfl⟩
    · rw [hputs.entryAt_of_ne fun hplace => hsame (contractPlace_inj hplace)] at hfile
      obtain ⟨source', hread', hcontent⟩ := h.contract ms hms content hfile
      exact ⟨source', hgrows.readText h.proper hlinks hread', hcontent⟩
  · intro ms hms m hlast hfile
    rw [hputs.entryAt_of_ne (Ne.symm (contractPlace_ne_abiPlace ns _))] at hfile
    exact (h.compiled ms hms m hlast hfile).grows hgrows h.proper hlinks

/-- A compiled form is copied to its place, where that of another interface of the same name may
have been. -/
theorem copies (hready : IsReady found workspace c here root interfaces) (hns : ns ∈ interfaces)
    (hlast : ns.getLast? = some n)
    (hputs : Puts t (abiPlace here (Path.stemOf n)) (.file content) t') {there : Place}
    (hartifact : t'.lookup (artifactPath workspace c n (Path.stemOf n))
      = .ok (there, .file content)) : Progress found workspace c table here interfaces t' := by
  have ht := h.proper
  have hlinks := h.isLinkless hready
  have hfills := hputs.fills ht (isBelow_append here (by simp)) (not_isLink_file content)
  have hgrows : GrowsBut t here (abiPlace here (Path.stemOf n)) t' :=
    ⟨hfills, fun q e hq hentry => by rwa [hputs.entryAt_of_ne hq]⟩
  refine ⟨⟨h.grows.fills.trans hfills, fun q e hq => ?_⟩, fun q hnone hsome =>
    h.new_of_entry (.abi hns hlast) ?_ hnone hsome, ?_, ?_⟩
  · refine hgrows.old q e ?_ (h.grows.old q e hq)
    rintro rfl
    rw [hready.entryAt_abiPlace] at hq
    cases hq
  · intro q
    by_cases hq : q = abiPlace here (Path.stemOf n)
    · exact .inr (.inl hq)
    · exact .inl (hputs.entryAt_of_ne hq)
  · intro ms hms bytes hfile
    rw [hputs.entryAt_of_ne (contractPlace_ne_abiPlace ms _)] at hfile
    obtain ⟨source, hread, hbytes⟩ := h.contract ms hms bytes hfile
    exact ⟨source, hready.readText_growsBut hms ht hlinks hgrows hread, hbytes⟩
  · intro ms hms m hm hfile
    by_cases hsame : Path.stemOf m = Path.stemOf n
    -- whatever interface has that name has the new compiled form now
    · exact ⟨ns, hns, m, n, content, hm, hlast, hsame.symm, hsame ▸ hputs.entryAt_self,
        read_eq_ok_iff.2 ⟨there, hartifact⟩⟩
    · rw [hputs.entryAt_of_ne fun hplace => hsame (abiPlace_inj hplace)] at hfile
      refine (h.compiled ms hms m hm hfile).growsBut hready.workspace_isAbsolute hready.normal
        (fun k hk => ?_) hgrows ht hlinks
      rw [hm] at hk
      cases hk
      exact hsame

end Progress

/-! ## The steps of an interface -/

/-- The export of an interface is done: its parts are found under their paths, and it is reported by
its source. -/
structure IsPlaced (t : FileTree) (workspace : Path) (c : Config) (table : Import.Table)
    (here : Place) (ns : List Text) (x : ExportedInterface) : Prop where
  reported : ∃ source n, t.readText (workspace.join (interfacePath c ns)) = .ok source ∧
    ns.getLast? = some n ∧ x = reportOf c ns (Path.stemOf n) (relocatedSource c table ns source)
  contract : ∃ content, t.lookup (workspace.join (contractPath c ns))
    = .ok (contractPlace here ns, .file content)
  compiled : ∀ n, ns.getLast? = some n → ∃ content,
    t.lookup (abiPath workspace c (Path.stemOf n))
      = .ok (abiPlace here (Path.stemOf n), .file content)

/-- A script that fills the package along with others, and what comes of it. -/
abbrev Advances {α : Type} (found : FileTree) (workspace : Path) (c : Config) (table : Import.Table)
    (here : Place) (interfaces : List (List Text)) (x : Script α) (s : Session)
    (post : α → FileTree → Prop) : Prop :=
  x.MeetsOnTrees (Progress found workspace c table here interfaces) (Upholds workspace c interfaces)
    post (fun _ => True) s

section

variable {s : Session}

/-- Reading a source, which can be read the same from then on. -/
theorem advances_readSource (hns : ns ∈ interfaces) :
    Advances found workspace c table here interfaces
      (.once (readSource (workspace.join (interfacePath c ns)))) s
      fun source t => t.readText (workspace.join (interfacePath c ns)) = .ok source := by
  refine .inspect fun t _ _ => ?_
  split
  · rename_i source hsource
    exact fun t₁ _ hkept => hkept.source ns hns source (eq_ok_of_mapError_eq_ok hsource)
  · trivial

/-- Looking for a compiled form. -/
theorem advances_requireArtifact (name : Text) (artifact : Path) :
    Advances found workspace c table here interfaces (.once (requireArtifact name artifact)) s
      fun _ _ => True := by
  refine .inspect fun t _ _ => ?_
  split
  · exact fun _ _ _ => trivial
  · trivial

variable (hready : IsReady found workspace c here root interfaces)

include hready

/-- Making the directory above a part of an interface. -/
theorem advances_makeParent {path : Path} {names : List Name}
    (hpath : (workspace.join c.exportDir).IsInto path names) (hnames : names ≠ [])
    (htarget : IsTarget here interfaces (here ++ names)) :
    Advances found workspace c table here interfaces (.once (makeParent path)) s
      fun _ _ => True := by
  unfold makeParent
  cases hparent : path.parent with
  | none =>
    refine .once fun s' hs' hkept => ?_
    exact ⟨hs', refl_of (OnTrees (Upholds workspace c interfaces)) s', fun _ _ _ => trivial⟩
  | some above =>
    refine .alter fun t ht _ => ?_
    have hpaves := (ht.settled hready).paves_parent hpath hnames hparent
    have hkept : Upholds workspace c interfaces t (outcome (makeDirectories above) t).2 :=
      .of_grows hpaves.grows ht.proper (ht.isLinkless hready)
    refine ⟨ht.paves hready htarget hpaves, hkept, ?_⟩
    split
    · exact fun _ _ _ => trivial
    · trivial

/-- Writing a relocated source. -/
theorem advances_writeFile (hns : ns ∈ interfaces)
    (hread : s.tree.readText (workspace.join (interfacePath c ns)) = .ok source) :
    Advances found workspace c table here interfaces
      (.once (writeFile (workspace.join (contractPath c ns))
        (relocatedSource c table ns source).text))
      s fun _ t => ∃ content, t.lookup (workspace.join (contractPath c ns))
        = .ok (contractPlace here ns, .file content) := by
  refine .change fun t ht hkept => ?_
  split
  · rename_i t' hwrite
    have hsettled := ht.settled hready
    have hinto := isInto_contract hready.workspace_isAbsolute c (hready.normal ns hns)
    obtain ⟨hgrows, hprogress⟩ := ht.writes hready hns (hkept.source ns hns source hread)
      (hsettled.write_into hinto hwrite)
    refine ⟨hprogress, .of_grows hgrows ht.proper (ht.isLinkless hready), fun t₁ _ hkept₁ => ?_⟩
    exact hkept₁.file _ _ _ (hsettled.lookup_of_write hinto hwrite)
  · trivial

/-- Copying a compiled form. -/
theorem advances_copyContents (hns : ns ∈ interfaces) (hlast : ns.getLast? = some n) :
    Advances found workspace c table here interfaces
      (.once (copyContents (artifactPath workspace c n (Path.stemOf n))
        (abiPath workspace c (Path.stemOf n)))) s
      fun _ t => ∃ content, t.lookup (abiPath workspace c (Path.stemOf n))
        = .ok (abiPlace here (Path.stemOf n), .file content) := by
  refine .change fun t ht _ => ?_
  split
  · rename_i t' hcopy
    have hname := interfaceName_interfacePath c (hready.normal ns hns) hlast
    have hinto := isInto_abi hready.workspace_isAbsolute c (isNormal_compiled hname)
    obtain ⟨there, -, content, -, hputs, hartifact, habi⟩ :=
      (ht.settled hready).lays_copy hinto hcopy
    refine ⟨ht.copies hready hns hlast hputs hartifact,
      hready.upholds ht.proper (ht.isLinkless hready) hputs, fun t₁ _ hkept₁ => ?_⟩
    exact hkept₁.file _ _ _ habi
  · trivial

/-- All steps of an interface fill the package, and leave the parts of the interface there. -/
theorem advances_interfaceScript (hns : ns ∈ interfaces) (hlast : ns.getLast? = some n)
    (hs : Progress found workspace c table here interfaces s.tree) :
    Advances found workspace c table here interfaces
      (interfaceScript workspace c table (interfacePath c ns)) s
      fun x t => IsPlaced t workspace c table here ns x := by
  have hnormal := hready.normal ns hns
  have habs := hready.workspace_isAbsolute
  have hname := interfaceName_interfacePath c hnormal hlast
  rw [interfaceScript_eq workspace c table hnormal hlast]
  refine (advances_readSource hns).bind hs fun source s₁ hs₁ _ hread₁ => ?_
  refine (advances_makeParent hready (isInto_contract habs c hnormal) (by simp)
    (.contract hns)).bind hs₁ fun _ s₂ hs₂ hkept₂ _ => ?_
  have hread₂ := hkept₂.source ns hns source hread₁
  refine (advances_writeFile hready hns hread₂).bind hs₂ fun _ s₃ hs₃ hkept₃ hcontract₃ => ?_
  refine (advances_requireArtifact _ _).bind hs₃ fun _ s₄ hs₄ hkept₄ _ => ?_
  refine (advances_makeParent hready (isInto_abi habs c (isNormal_compiled hname)) (by simp)
    (.abi hns hlast)).bind hs₄ fun _ s₅ hs₅ hkept₅ _ => ?_
  refine (advances_copyContents hready hns hlast).bind hs₅ fun _ s₆ hs₆ hkept₆ habi₆ => ?_
  -- what the steps have left is there at the end, whatever the others have done since
  intro s₇ _ hkept₇
  have hkept : Upholds workspace c interfaces s₃.tree s₇.tree :=
    trans_of _ hkept₄ (trans_of _ hkept₅ (trans_of _ hkept₆ hkept₇))
  have hread₇ := hkept.source ns hns source (hkept₃.source ns hns source hread₂)
  obtain ⟨_, hcontract⟩ := hcontract₃
  obtain ⟨_, habi⟩ := habi₆
  refine ⟨⟨source, n, hread₇, hlast, rfl⟩, hkept.file _ _ _ hcontract, fun m hm => ?_⟩
  rw [hlast] at hm
  cases hm
  exact hkept₇.file _ _ _ habi

end

end InterfacePackage.Export
