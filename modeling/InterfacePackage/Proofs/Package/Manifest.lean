import InterfacePackage.Package.Manifest
import InterfacePackage.Proofs.Json.Layout
import InterfacePackage.Proofs.Package.Dependencies

/-!
# The manifest of a package read as that of a project

The reader of project manifests takes the members of a package's manifest one after another into a
draft: it passes over the name and the description and keeps the rest. Main statement:
`text_reads_back`.
-/

namespace InterfacePackage

open Json

namespace Json

variable {α σ : Type} {member : σ → Text → Reader σ} {acc next : σ} {k v : Text} {indent : Text}

/-! ## Members that may be absent -/

/-- One member is taken. -/
theorem Takes.one (h : Reads (member acc k) (": ".toList ++ v) next) :
    Takes member [(k, v)] acc next :=
  .cons h (.nil member next)

/-- A member that may be left out is taken, when it is taken where it stands. -/
theorem Takes.option {write : α → Text} (next : Option α → σ)
    (h : ∀ y, Takes member [(k, write y)] (next none) (next (some y))) (x : Option α) :
    Takes member (x.map fun y => (k, write y)).toList (next none) (next x) := by
  cases x with
  | none => exact .nil member (next none)
  | some y => exact h y

/-- The value behind the colon of a member is read, and something is made of it. -/
theorem reads_member {r : Reader α} {x : α} (h : Reads r v x) (f : α → σ) :
    Reads (Reader.colon >>= fun _ => r >>= fun x => pure (f x)) (": ".toList ++ v) (f x) :=
  ((answers_some_iff.2 h).map f).colon isBlanks_blank

/-! ## Lists of strings and dependencies -/

/-- A list of strings is read. -/
theorem reads_texts (depth : Nat) (hindent : IsBlanks indent) (ts : List Text) :
    Reads Reader.texts (enclose '[' ']' indent depth (ts.map Quoted.write)) ts := by
  apply reads_list depth hindent
  · rw [List.forall₂_map_left_iff, List.forall₂_same]
    intro t _
    exact reads_string "a string" t
  · intro p hp
    obtain ⟨t, _, rfl⟩ := List.mem_map.1 hp
    exact ⟨'"', _, rfl, rfl, by decide⟩

/-- Entries are laid one after another over the dependencies that have come so far. -/
theorem takes_entries (d : Dependencies) (entries : List (Text × Text)) :
    Takes (fun (acc : Dependencies) key => do
        Reader.colon
        return acc.insert key (← Reader.string "a string"))
      (entries.map fun e => (e.1, Quoted.write e.2)) d (d.overlay entries) := by
  induction entries generalizing d with
  | nil => exact .nil _ d
  | cons e entries ih =>
    exact .cons (reads_member (reads_string "a string" e.2) (d.insert e.1)) (ih (d.insert e.1 e.2))

/-- Dependencies are read. -/
theorem reads_dependencies (depth : Nat) (hindent : IsBlanks indent) (d : Dependencies) :
    Reads Reader.dependencies (enclose '\x7b' '\x7d' indent depth
      ((d.entries.map fun e => (e.1, Quoted.write e.2)).map written)) d := by
  have h := reads_object depth hindent (takes_entries .empty d.entries)
  have hsame : Dependencies.empty.overlay d.entries = d := d.ofList_entries
  rwa [hsame] at h

end Json

namespace ProjectManifest.Draft

variable {α : Type} {d : Draft}

/-! ## The members of a draft -/

/-- The member of an unknown key is passed over. -/
theorem takes_unknown (key : Text) (d : Draft) (t : Text)
    (hkey : key ∉ ["version".toList, "keywords".toList, "license".toList, "dependencies".toList]) :
    Takes readMember [(key, Quoted.write t)] d d := by
  simp only [List.mem_cons, List.not_mem_nil, or_false, not_or] at hkey
  obtain ⟨hversion, hkeywords, hlicense, hdependencies⟩ := hkey
  refine .one ?_
  rw [readMember, if_neg hversion, if_neg hkeywords, if_neg hlicense, if_neg hdependencies]
  exact reads_member (reads_skip t) fun _ => d

/-- A field that may be absent is taken, when the reader of its key reads what is written for it. -/
theorem takes_optional (key : Text) (set : Option (Option α) → Draft) {r : Reader α}
    {write : α → Text} {c : Char}
    (hmember : (set none).readMember key
      = Reader.colon >>= fun _ => Reader.optional r >>= fun x => pure (set (some x)))
    (hreads : ∀ x, Reads r (write x) x) (hfirst : ∀ x, (write x).head? = some c)
    (hblank : Json.isBlank c = false) (hnull : c ≠ 'n') (x : Option α) :
    Takes readMember (x.map fun y => (key, write y)).toList (set none) (set (x.map some)) := by
  refine Takes.option (fun x => set (x.map some)) (fun y => .one ?_) x
  have hread := reads_optional (hreads y) (hfirst y) hblank hnull
  rw [Option.map_none, hmember]
  exact reads_member hread fun x => set (some x)

end ProjectManifest.Draft

namespace PackageManifest

open ProjectManifest.Draft (takes_unknown takes_optional)

/-- What carries over from a package's manifest when it is taken for a project's. -/
def project (m : PackageManifest) : ProjectManifest where
  version := m.version
  keywords := m.keywords
  license := m.license
  dependencies := m.dependencies

/-- The draft that a project's manifest is finished from when all members have come. -/
def draft (m : PackageManifest) : ProjectManifest.Draft where
  version := m.version.map some
  keywords := m.keywords.map some
  license := m.license.map some
  dependencies := some m.dependencies

/-- It is finished to what carries over. -/
theorem finish_draft (m : PackageManifest) : m.draft.finish = m.project := by
  have hfield : ∀ {α : Type} (x : Option α), (x.map some).getD none = x := by
    intro α x
    cases x <;> rfl
  rw [ProjectManifest.Draft.finish, draft, hfield, hfield, hfield]
  rfl

/-- The members of a manifest as they are laid out. -/
def members (m : PackageManifest) (indent : Text) : List (Text × Text) :=
  [("name".toList, Quoted.write m.name)]
  ++ [("description".toList, Quoted.write m.description)]
  ++ (m.version.map fun v => ("version".toList, Quoted.write v)).toList
  ++ (m.keywords.map fun ks =>
      ("keywords".toList, enclose '[' ']' indent 1 (ks.map Quoted.write))).toList
  ++ (m.license.map fun l => ("license".toList, Quoted.write l)).toList
  ++ [("dependencies".toList, enclose '\x7b' '\x7d' indent 1
        ((m.dependencies.entries.map fun e => (e.1, Quoted.write e.2)).map written))]

/-- The members of a manifest are laid out one by one. -/
theorem layout_toJson (m : PackageManifest) (indent : Text) :
    layout indent 0 m.toJson = enclose '\x7b' '\x7d' indent 0 ((m.members indent).map written) := by
  rw [toJson, layout, layoutMembers_eq, members]
  simp only [List.map_append, ← Option.toList_map, Option.map_map, Function.comp_def, layout,
    List.map_cons, List.map_nil, layoutItems_eq, layoutMembers_eq, List.map_map]
  rfl

/-- The members of a manifest are taken into a draft of what carries over. -/
theorem takes_members (m : PackageManifest) {indent : Text} (hindent : IsBlanks indent) :
    Takes ProjectManifest.Draft.readMember (m.members indent) {} m.draft := by
  have hname := takes_unknown "name" {} m.name (by decide)
  have hdescription := takes_unknown "description" {} m.description (by decide)
  have hversion := takes_optional "version" (fun x => { version := x }) rfl
    (reads_string "a string") (fun _ => rfl) rfl (by decide) m.version
  have hkeywords := takes_optional "keywords"
    (fun x => { version := m.version.map some, keywords := x }) rfl (reads_texts 1 hindent)
    (fun _ => head?_enclose _ _ _ _ _) rfl (by decide) m.keywords
  have hlicense := takes_optional "license" (fun x =>
      { version := m.version.map some, keywords := m.keywords.map some, license := x }) rfl
    (reads_string "a string") (fun _ => rfl) rfl (by decide) m.license
  refine .append (.append (.append (.append (.append hname hdescription) hversion) hkeywords)
    hlicense) (.one ?_)
  exact reads_member (reads_dependencies 1 hindent m.dependencies) fun dependencies =>
    { m.draft with dependencies := some dependencies }

/-! ## The text of a manifest -/

/-- The text of a manifest is read as what carries over from it. -/
theorem ofText_text (m : PackageManifest) : ProjectManifest.ofText m.text = .ok m.project := by
  have hindent := isBlanks_replicate 4
  have hread : Reads ProjectManifest.Draft.reader (layout (List.replicate 4 ' ') 0 m.toJson)
      m.draft := by
    rw [layout_toJson]
    exact reads_record 0 hindent (m.takes_members hindent)
  rw [ProjectManifest.ofText, text, document, document_of_reads hread, Except.map, finish_draft]

/-- A manifest holds no numbers, so it can be written. -/
theorem isWritable_toJson (m : PackageManifest) : IsWritable m.toJson := by
  refine .object fun kx hkx => ?_
  simp only [List.mem_append, List.mem_cons, List.not_mem_nil, or_false, Option.mem_toList,
    Option.map_eq_some_iff] at hkx
  rcases hkx with ((((rfl | rfl) | ⟨v, _, rfl⟩) | ⟨ks, _, rfl⟩) | ⟨l, _, rfl⟩) | rfl
  · exact .string m.name
  · exact .string m.description
  · exact .string v
  · refine .list fun x hx => ?_
    obtain ⟨k, _, rfl⟩ := List.mem_map.1 hx
    exact .string k
  · exact .string l
  · refine .object fun kx hkx => ?_
    obtain ⟨e, _, rfl⟩ := List.mem_map.1 hkx
    exact .string e.2

/-- The text of a manifest is parsed as the value it was written for. -/
theorem parse_text (m : PackageManifest) : parse m.text = .ok m.toJson :=
  parse_document m.isWritable_toJson 4

/-- Its name comes first among the members. -/
theorem get?_name (m : PackageManifest) : m.toJson.get? "name" = some (.string m.name) := rfl

/-- Its description comes right after it. -/
theorem get?_description (m : PackageManifest) :
    m.toJson.get? "description" = some (.string m.description) := rfl

/-- What carries over from the manifest of a package gives that manifest again. -/
theorem assemble_project (p : ProjectManifest) (c : Config) :
    assemble (assemble p c).project c = assemble p c := by
  have hdependencies := p.dependencies.overlay_overlay c.extraDependencies
  rw [assemble, project]
  show PackageManifest.mk _ _ _ _ _ ((p.dependencies.overlay _).overlay _) = _
  rw [hdependencies]
  rfl

/-- A file that holds the bytes of a text is read as that text. -/
theorem readText_of_read {t : FileTree} {path : Path} {text : Text}
    (hread : t.read path = .ok (Utf8.encode text)) : t.readText path = .ok text := by
  simp only [FileTree.readText, hread, bind, Except.bind, Utf8.decode_encode]

/-- A file that holds the text of a manifest is loaded. -/
theorem load_text {t : FileTree} {path : Path} {m : PackageManifest}
    (hread : t.read path = .ok (Utf8.encode m.text)) :
    ProjectManifest.load t path = .ok m.project := by
  simp only [ProjectManifest.load, readText_of_read hread, bind, Except.bind, Except.mapError,
    ofText_text]

/-- The text of an assembled manifest reads back: a project's manifest is read from it with the
version, the keywords, the license and the dependencies of the assembled one, and so it is loaded
from any file that holds the text; the name and the description in the text are the configured ones;
and what was read is assembled to the same text again. -/
theorem text_reads_back (p : ProjectManifest) (c : Config) :
    ∃ q, ProjectManifest.ofText (assemble p c).text = .ok q ∧
      (∀ (t : FileTree) (path : Path), t.read path = .ok (Utf8.encode (assemble p c).text) →
        ProjectManifest.load t path = .ok q) ∧
      q.version = (assemble p c).version ∧ q.keywords = (assemble p c).keywords ∧
      q.license = (assemble p c).license ∧ q.dependencies = (assemble p c).dependencies ∧
      (∃ x, parse (assemble p c).text = .ok x ∧
        x.get? "name" = some (.string c.packageName) ∧
        x.get? "description" = some (.string c.packageDescription)) ∧
      (assemble q c).text = (assemble p c).text := by
  have hvalue := (assemble p c).parse_text
  refine ⟨(assemble p c).project, (assemble p c).ofText_text, fun t path => load_text,
    rfl, rfl, rfl, rfl, ⟨_, hvalue, get?_name _, get?_description _⟩, ?_⟩
  rw [assemble_project]

/-- A tree with one file at its root. -/
def singleFile (name text : Text) : FileTree :=
  FileTree.put ⟨∅, []⟩ [Utf8.encode name] (.file (Utf8.encode text))

/-- A project whose manifest has characters that are escaped and a dependency of the package's
own. -/
def quotingProject : ProjectManifest where
  version := some "1.0\n\"β\"".toList
  keywords := some ["\x01\\".toList, []]
  dependencies := .ofList [("bn.js".toList, "^1".toList), ("a b".toList, "/".toList)]

/-- The manifest of its package is loaded from the only file of a tree. -/
theorem text_reads_back_quotingProject :
    ∃ q, ProjectManifest.load
        (singleFile "package.json" (assemble quotingProject .standard).text) "/package.json"
        = .ok q ∧
      q.version = quotingProject.version ∧ q.keywords = quotingProject.keywords ∧
      q.license = none ∧
      (assemble q .standard).text = (assemble quotingProject .standard).text := by
  obtain ⟨q, -, hload, hversion, hkeywords, hlicense, -, -, htext⟩ :=
    text_reads_back quotingProject .standard
  exact ⟨q, hload _ _ (by decide +kernel), hversion, hkeywords, hlicense, htext⟩

end PackageManifest

end InterfacePackage
