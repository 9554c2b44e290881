import InterfacePackage.Proofs.Package.Manifest
import InterfacePackage.Proofs.Settings.Fields

/-!
# Configurations by layers

A configuration takes each field from the topmost layer that has a value for it: from the command
line, else from the configuration file, else from the defaults. Nothing is merged. A file that holds
any other object than one of a configuration is refused, whatever the command line. Main statement:
`Config.resolve_by_layers`.
-/

namespace InterfacePackage

open Json

variable {t : FileTree} {workspace path : Path} {a : Arguments} {text : Text} {f : Field}
  {ms : List (Text × Json)}

/-! ## The values of a layer -/

/-- The values that a command line gives. -/
inductive Arguments.Gives (a : Arguments) : (f : Field) → f.Value → Prop where
  | anchor {s : Text} (h : a.anchor = some s) : Gives a .anchor s
  | exportDir {p : Path} (h : a.exportDir = some p) : Gives a .exportDir p
  | targets (h : a.targets ≠ []) : Gives a .targets a.targets
  | packageManager {manager : PackageManager} (h : a.packageManager = some manager) :
      Gives a .packageManager (some manager)

/-- The layer of a command line holds the values that it gives. -/
theorem Arguments.gives_iff {y : f.Value} : a.Gives f y ↔ a.layer f = some y := by
  constructor
  · rintro (h | h | h | h)
    · exact h
    · exact h
    · exact if_neg h
    · exact congrArg (Option.map some) h
  · intro h
    cases f with
    | anchor => exact .anchor h
    | exportDir => exact .exportDir h
    | targets =>
      have hne : a.targets ≠ [] := fun hnil => by simp [layer, hnil] at h
      have hsame : a.targets = y := by simpa [layer, hne] using h
      exact hsame ▸ .targets hne
    | packageManager =>
      obtain ⟨manager, hmanager, rfl⟩ := Option.map_eq_some_iff.1 h
      exact .packageManager hmanager
    | _ => cases h

namespace Config

/-- The value of a field. -/
def get (c : Config) : (f : Field) → f.Value
  | .packageName => c.packageName
  | .packageDescription => c.packageDescription
  | .outDir => c.outDir
  | .exportDir => c.exportDir
  | .interfacesDir => c.interfacesDir
  | .interfacesGlob => c.interfacesGlob
  | .remappings => c.remappings
  | .readme => c.readme
  | .license => c.license
  | .anchor => c.anchor
  | .modulesMarker => c.modulesMarker
  | .extraDependencies => c.extraDependencies
  | .targets => c.targets
  | .packageManager => c.packageManager

/-- A layer replaces the values of the fields it has values for. -/
theorem get_overlay (c : Config) (l : Layer) (f : Field) :
    (c.overlay l).get f = (l f).getD (c.get f) := by
  cases f <;> rfl

/-! ## Three layers -/

/-- A configuration takes every field from the command line, else from the members of the file, else
from the defaults. -/
structure IsLayered (c : Config) (a : Arguments) (ms : List (Text × Json)) : Prop where
  /-- The value that the command line gives counts. -/
  commandLine : ∀ (f : Field) (y : f.Value), a.Gives f y → c.get f = y
  /-- Where it gives none, that of the file does. -/
  file : ∀ f : Field, (¬ ∃ y, a.Gives f y) → ∀ m ∈ ms, m.1 = f.key → f.ofJson? m.2 = some (c.get f)
  /-- Where the file has none either, the default is left. -/
  default : ∀ f : Field, (¬ ∃ y, a.Gives f y) → f.key ∉ ms.map (·.1) → c.get f = standard.get f
  /-- Dependencies in the file are kept in the order in which their names first come, each with the
  version that comes last. -/
  dependencies : ∀ m ∈ ms, m.1 = Field.key .extraDependencies → ∃ entries,
    m.2.entries? = some entries ∧
      c.extraDependencies.entries.map (·.1) = (entries.map (·.1)).eraseDups ∧
      ∀ e ∈ c.extraDependencies.entries, entries.reverse.find? (·.1 = e.1) = some e

/-- Where the command line gives no value, its layer has none. -/
theorem layer_eq_none (h : ¬ ∃ y, a.Gives f y) : a.layer f = none := by
  by_contra hsome
  obtain ⟨y, hy⟩ := Option.ne_none_iff_exists'.1 hsome
  exact h ⟨y, Arguments.gives_iff.2 hy⟩

/-- Laid over each other, the defaults, the file and the command line make such a configuration. -/
theorem isLayered_overlay (h : IsConfiguration ms) (a : Arguments) :
    ((standard.overlay (.ofMembers ms)).overlay a.layer).IsLayered a ms := by
  have hfile : ∀ f : Field, (¬ ∃ y, a.Gives f y) → ∀ m ∈ ms, m.1 = f.key →
      f.ofJson? m.2 = some (((standard.overlay (.ofMembers ms)).overlay a.layer).get f) := by
    intro f hgives m hm hkey
    obtain ⟨y, hy⟩ := Option.isSome_iff_exists.1 (h.typed m hm f hkey.symm)
    rw [get_overlay, layer_eq_none hgives, Option.getD_none, get_overlay,
      Layer.ofMembers_of_mem h.nodup hm hkey, hy, Option.getD_some]
  refine ⟨fun f y hy => ?_, hfile, fun f hgives hkey => ?_, fun m hm hkey => ?_⟩
  · rw [get_overlay, Arguments.gives_iff.1 hy, Option.getD_some]
  · rw [get_overlay, layer_eq_none hgives, Option.getD_none, get_overlay,
      Layer.ofMembers_of_notMem hkey, Option.getD_none]
  · -- no option is for dependencies
    have hvalue := hfile .extraDependencies (by rintro ⟨y, ⟨⟩⟩) m hm hkey
    obtain ⟨entries, hentries, hsame⟩ := Option.map_eq_some_iff.1 hvalue
    refine ⟨entries, hentries, ?_⟩
    change Dependencies.ofList entries = Config.extraDependencies _ at hsame
    rw [← hsame]
    exact ⟨Dependencies.names_ofList entries, fun e => Dependencies.find?_reverse_of_mem_ofList⟩

/-! ## The configuration file -/

/-- A file that can be read is there. -/
theorem exists?_of_readText (h : t.readText path = .ok text) : t.exists? path = true := by
  rw [FileTree.exists?]
  cases hlookup : t.lookup path with
  | ok found => rfl
  | error e =>
    rw [FileTree.readText, FileTree.read, hlookup] at h
    cases h

/-- The layer of a file that can be read is the one written in it. -/
theorem fileLayer_of_readText
    (h : t.readText (workspace.join (a.config.getD fileName)) = .ok text) :
    fileLayer t workspace a = (Layer.ofText text).mapError
      (.invalidConfig (workspace.join (a.config.getD fileName))) := by
  have hload : Layer.load t (workspace.join (a.config.getD fileName)) = (Layer.ofText text).mapError
      (.invalidConfig (workspace.join (a.config.getD fileName))) := by
    rw [Layer.load, h]
    rfl
  have hexists := exists?_of_readText h
  rw [fileLayer]
  cases hconfig : a.config with
  | some p =>
    rw [hconfig] at hload
    exact hload
  | none =>
    rw [hconfig] at hload hexists
    exact (if_pos hexists).trans hload

/-- A configuration resolves with the layer of its file between the defaults and the command line.
-/
theorem resolve_of_fileLayer {l : Layer} (h : fileLayer t workspace a = .ok l) :
    resolve t workspace a = .ok ((standard.overlay l).overlay a.layer) := by
  rw [resolve, h]
  rfl

/-- The configuration file is refused. -/
def IsRefused (t : FileTree) (workspace : Path) (a : Arguments) : Prop :=
  ∃ problem, resolve t workspace a
    = .error (.invalidConfig (workspace.join (a.config.getD fileName)) problem)

/-- A file from whose text no layer can be read is refused. -/
theorem isRefused_of_ofText {problem : Problem}
    (hread : t.readText (workspace.join (a.config.getD fileName)) = .ok text)
    (h : Layer.ofText text = .error problem) : IsRefused t workspace a := by
  refine ⟨problem, ?_⟩
  rw [resolve, fileLayer_of_readText hread, h]
  rfl

/-- A configuration resolves field by field: when the configuration file holds an object whose keys
are those of fields, each at most once and with a value of the field's type, every field is taken
from the command line, else from the file, else from the defaults, and any other order of the keys
resolves to the same. Any other object in the file is refused, whatever the command line, and so is
a text that starts as an object and holds none. -/
theorem resolve_by_layers
    (hread : t.readText (workspace.join (a.config.getD fileName)) = .ok text) :
    (∀ ms, IsDocument text (.object ms) → IsConfiguration ms →
      (∃ c, resolve t workspace a = .ok c ∧ c.IsLayered a ms) ∧
      ∀ (t' : FileTree) (text' : Text) (ms' : List (Text × Json)),
        t'.readText (workspace.join (a.config.getD fileName)) = .ok text' →
        IsDocument text' (.object ms') → ms'.Perm ms →
          resolve t' workspace a = resolve t workspace a) ∧
    (∀ ms, IsDocument text (.object ms) → ¬ IsConfiguration ms → IsRefused t workspace a) ∧
    ∀ b inside, text = b ++ '\x7b' :: inside → IsBlanks b →
      (¬ ∃ ms, IsDocument text (.object ms)) → IsRefused t workspace a := by
  refine ⟨fun ms hdocument h => ⟨?_, fun t' text' ms' hread' hdocument' hperm => ?_⟩,
    fun ms hdocument h => ?_, ?_⟩
  · have hfile := fileLayer_of_readText hread
    rw [(Layer.ofText_of_isDocument hdocument).1 h] at hfile
    exact ⟨_, resolve_of_fileLayer hfile, isLayered_overlay h a⟩
  · have hfile := fileLayer_of_readText hread
    have hfile' := fileLayer_of_readText hread'
    rw [(Layer.ofText_of_isDocument hdocument).1 h] at hfile
    rw [(Layer.ofText_of_isDocument hdocument').1 (h.of_perm hperm),
      Layer.ofMembers_of_perm h hperm] at hfile'
    rw [resolve_of_fileLayer hfile, resolve_of_fileLayer hfile']
  · obtain ⟨problem, hproblem⟩ := (Layer.ofText_of_isDocument hdocument).2 h
    exact isRefused_of_ofText hread hproblem
  · rintro b inside rfl hb hnone
    cases hlayer : Layer.ofText (b ++ '\x7b' :: inside) with
    | error problem => exact isRefused_of_ofText hread hlayer
    | ok l =>
      obtain ⟨ms, hdocument, -⟩ := Layer.exists_of_ofText hb hlayer
      exact absurd ⟨ms, hdocument⟩ hnone

/-- A tree with members in its configuration file. -/
def configured (ms : List (Text × Json)) : FileTree :=
  PackageManifest.singleFile fileName ((Json.object ms).document 2)

/-- The file is read as what it was written for. -/
theorem readText_configured (ms : List (Text × Json)) :
    (configured ms).readText (Path.join "/" fileName) = .ok ((Json.object ms).document 2) :=
  PackageManifest.readText_of_read rfl

/-- Members with values of every type, a dependency among them that comes twice. -/
def layeredMembers : List (Text × Json) :=
  [("targets".toList, .list [.string "a\n".toList]),
    ("extraDependencies".toList, .object [("b".toList, .string "1".toList),
      ("a".toList, .string "2".toList), ("b".toList, .string "3".toList)]),
    ("packageManager".toList, .object [("yarn".toList, .null)]),
    ("anchor".toList, .string "s".toList)]

/-- Each layer counts where it is on top, also with the members turned round, and members that come
twice are refused. -/
theorem resolve_by_layers_layeredMembers :
    (∃ c, resolve (configured layeredMembers) "/" { anchor := some "src".toList } = .ok c ∧
      resolve (configured layeredMembers.reverse) "/" { anchor := some "src".toList } = .ok c ∧
      c.anchor = "src".toList ∧ c.targets = ["a\n".toList] ∧ c.packageManager = some .yarn ∧
      c.extraDependencies.entries = [("b".toList, "3".toList), ("a".toList, "2".toList)] ∧
      c.outDir = "out".toList) ∧
    IsRefused (configured (layeredMembers ++ layeredMembers)) "/" {} := by
  have hwritable : ∀ m ∈ layeredMembers, IsWritable m.2 := by
    simp only [layeredMembers, List.forall_mem_cons, List.not_mem_nil, false_implies, implies_true,
      and_true]
    refine ⟨.list ?_, .object ?_, .object ?_, .string _⟩ <;>
      simp [IsWritable.string, IsWritable.null]
  have hdocument : ∀ ms : List (Text × Json), (∀ m ∈ ms, m ∈ layeredMembers) →
      IsDocument ((Json.object ms).document 2) (.object ms) := fun ms hms =>
    isDocument_document (.object fun m hm => hwritable m (hms m hm)) 2
  constructor
  · have hmembers : IsConfiguration layeredMembers := by decide
    obtain ⟨⟨c, hc, hlayered⟩, horder⟩ := (@resolve_by_layers _ "/".toList
      { anchor := some "src".toList } _ (readText_configured layeredMembers)).1 layeredMembers
      (hdocument _ fun _ => id) hmembers
    have hreverse := horder _ _ _ (readText_configured layeredMembers.reverse)
      (hdocument _ fun m => List.mem_reverse.1) layeredMembers.reverse_perm
    have hgives : ∀ f : Field, f ≠ .anchor →
        ¬ ∃ y, Arguments.Gives { anchor := some "src".toList } f y := by
      rintro f hf ⟨y, h | h | h | h⟩
      · exact hf rfl
      · cases h
      · exact h rfl
      · cases h
    have htargets := hlayered.file .targets (hgives _ nofun) _ (.head _) rfl
    have hextra := hlayered.file .extraDependencies (hgives _ nofun) _ (.tail _ (.head _)) rfl
    have hmanager := hlayered.file .packageManager (hgives _ nofun) _
      (.tail _ (.tail _ (.head _))) rfl
    exact ⟨c, hc, hreverse.trans hc, hlayered.commandLine .anchor _ (.anchor rfl),
      (Option.some.inj htargets).symm, (Option.some.inj hmanager).symm,
      (congrArg Dependencies.entries (Option.some.inj hextra)).symm,
      hlayered.default .outDir (hgives _ nofun) (by decide)⟩
  · have htwice : ¬ IsConfiguration (layeredMembers ++ layeredMembers) :=
      fun h => absurd h.nodup (by decide)
    exact (@resolve_by_layers _ "/".toList {} _
      (readText_configured (layeredMembers ++ layeredMembers))).2.1 _
      (hdocument _ fun m hm => (List.mem_append.1 hm).elim id id) htwice

end Config

end InterfacePackage
