import InterfacePackage.Proofs.Export.Package

/-!
# The inputs of an export

An export reads the interfaces of a project, their compiled forms, the remappings, the readme and
the license, each from a place of its own, and it empties the export directory before it reads any
of them. In a tree without links an input survives whatever comes of the export unless it lies
inside the export directory; one that does may be lost. Main statement: `run_spares_inputs`.
-/

namespace InterfacePackage.Export

open FileTree

variable {t t₁ t' : FileTree} {workspace dir : Path} {c : Config} {here q : Place}

/-! ## What is not in the export directory -/

/-- What stood outside of a directory still stands there, and there are no links. -/
structure Retains (t : FileTree) (here : Place) (t' : FileTree) : Prop where
  proper : t'.IsProper
  linkless : t'.IsLinkless
  kept : ∀ q e, ¬ isBelow here q = true → t.entryAt q = some e → t'.entryAt q = some e

namespace Retains

theorem refl (ht : t.IsProper) (hlinks : t.IsLinkless) (here : Place) : Retains t here t :=
  ⟨ht, hlinks, fun _ _ _ hq => hq⟩

theorem of_strips (hlinks : t.IsLinkless) (h : Strips t here t') : Retains t here t' :=
  ⟨h.proper, h.isLinkless hlinks, fun _ _ hq hentry => (h.entryAt_eq hq).trans hentry⟩

theorem of_builds {path : Path} (hlinks : t.IsLinkless) (h : Builds t path t') (here : Place) :
    Retains t here t' :=
  ⟨h.proper, h.isLinkless hlinks, fun _ _ _ hentry => h.kept hentry⟩

theorem fills (h : Retains t here t₁) (h' : Fills t₁ here t') : Retains t here t' :=
  ⟨h'.proper, h'.isLinkless h.linkless,
    fun q e hq hentry => (h'.entryAt_eq hq).trans (h.kept q e hq hentry)⟩

/-- Without links an absolute path denotes no directory but the one where its spelling leads. -/
theorem sole (h : Retains t here t') (habs : dir.isAbsolute = true) : Sole t' dir dir.endpoint where
  proper := h.proper
  linkless q _ := h.linkless q
  only _ hq _ := hq.eq_endpoint h.linkless habs

end Retains

/-- Preparing the export directory loses nothing outside of it, and nothing at all if it is
refused. -/
theorem prepare_retains {s s' : Session} (ht : s.tree.IsProper) (hlinks : s.tree.IsLinkless)
    (habs : dir.isAbsolute = true) {result : Except Failure Unit}
    (hrun : outcome (prepare workspace dir) s = (result, s')) :
    Retains s.tree dir.endpoint s'.tree ∧
      ∀ e, result = .error e → e.IsRefusal → s'.tree = s.tree := by
  have hdir : dir ≠ [] := Path.ne_nil_of_isAbsolute habs
  have hsame : Retains s.tree dir.endpoint s.tree := .refl ht hlinks _
  cases preparing_of_outcome ht hdir hrun with
  | refused _ => exact ⟨hsame, fun _ _ _ => rfl⟩
  | blocked _ _ => exact ⟨hsame, fun _ _ _ => rfl⟩
  | made _ _ hbuilds hother _ =>
    exact ⟨.of_builds hlinks hbuilds _, fun e he hrefusal => absurd hrefusal (hother e he)⟩
  | emptied _ hlookup hstrips hother _ =>
    obtain ⟨hdenotes, hdirectory, -⟩ := denotes_of_lookup ht.sound hlookup
    rw [(hsame.sole habs).only _ hdenotes hdirectory] at hstrips
    exact ⟨.of_strips hlinks hstrips, fun e he hrefusal => absurd hrefusal (hother e he)⟩

/-- Assembling the package loses nothing outside of the export directory, and nothing at all if that
is refused; nor does what follows on it and leaves the tree alone. -/
theorem assemble_retains (ht : t.IsProper) (hlinks : t.IsLinkless)
    (habs : workspace.isAbsolute = true) (turns : List Nat) {α : Type}
    {next : List ExportedInterface → Action α}
    (hnext : ∀ interfaces t₁ here, FillsOnly t₁ here (next interfaces)) :
    Ensures (fun s => s.tree = t) (assemble workspace c turns >>= next)
      (fun _ s => Retains t (workspace.join c.exportDir).endpoint s.tree)
      (fun e s => Retains t (workspace.join c.exportDir).endpoint s.tree ∧
        (e.IsRefusal → s.tree = t)) := by
  have hdirAbs := Path.isAbsolute_join_of_isAbsolute habs c.exportDir
  have hprepare : Ensures (fun s => s.tree = t) (prepare workspace (workspace.join c.exportDir))
      (fun _ s => Retains t (workspace.join c.exportDir).endpoint s.tree)
      (fun e s => Retains t (workspace.join c.exportDir).endpoint s.tree ∧
        (e.IsRefusal → s.tree = t)) := by
    rintro s rfl
    cases hrun : outcome (prepare workspace (workspace.join c.exportDir)) s with
    | mk result s' =>
      obtain ⟨hretains, hrefusal⟩ := prepare_retains ht hlinks hdirAbs hrun
      cases result with
      | ok _ => exact hretains
      | error e => exact ⟨hretains, hrefusal e rfl⟩
  have hassemble : Ensures (fun s => s.tree = t) (assemble workspace c turns)
      (fun _ s => ∃ t₁, Retains t (workspace.join c.exportDir).endpoint t₁ ∧
        Fills t₁ (workspace.join c.exportDir).endpoint s.tree)
      (fun e s => Retains t (workspace.join c.exportDir).endpoint s.tree ∧
        (e.IsRefusal → s.tree = t)) := by
    refine hprepare.bind fun _ => ?_
    intro s hretains
    have hrest := ((hretains.sole hdirAbs).writeFront habs).bind fun _ =>
      Ensures.of_fact fun hsettled => fillsOnly_packInterfaces habs hsettled turns
    exact hrest.weaken (fun _ h => h) (fun _ _ h => ⟨s.tree, hretains, h.2⟩)
      (fun _ _ h => ⟨hretains.fills h.1, fun hrefusal => absurd hrefusal h.2⟩) s rfl
  refine hassemble.bind fun interfaces => ?_
  rintro s ⟨t₁, hretains, hfills⟩
  exact (hnext interfaces t₁ _).weaken (fun _ h => h) (fun _ _ h => hretains.fills h)
    (fun _ _ h => ⟨hretains.fills h.1, fun hrefusal => absurd hrefusal h.2⟩) s hfills

/-! ## Inputs -/

/-- The places of what an export reads in a project: interfaces, their compiled forms, and the files
that the configuration names. -/
inductive IsInput (t : FileTree) (workspace : Path) (c : Config) : Place → Prop
  | source {root : Place} {ns : List Text} (hroot : t.Denotes (workspace.join c.interfacesDir) root)
      (hns : IsInterface t root c.interfacesGlob ns) :
      IsInput t workspace c (root ++ ns.map Utf8.encode)
  | artifact {root q : Place} {ns : List Text} {n : Text}
      (hroot : t.Denotes (workspace.join c.interfacesDir) root)
      (hns : IsInterface t root c.interfacesGlob ns) (hlast : ns.getLast? = some n)
      (hq : t.Denotes (artifactPath workspace c n (Path.stemOf n)) q) : IsInput t workspace c q
  | named {q : Place} {setting : Path} (hsetting : setting ∈ [c.remappings, c.readme, c.license])
      (hq : t.Denotes (workspace.join setting) q) : IsInput t workspace c q

/-- An export never loses an input that does not lie inside the export directory, going by where the
spelling of its path leads. Whatever the turns and whatever comes of it, every such file is still
there with the same content. When the configuration cannot be resolved or the export directory is
refused, no input is lost at all. -/
theorem run_spares_inputs (programs : Programs) {current : Path} {a : Arguments}
    {turns : List Nat} (ht : t.IsProper) (hlinks : t.IsLinkless)
    (hcurrent : current.isAbsolute = true) {result : Except Failure Summary} {s : Session}
    (hrun : outcome (run programs current a turns) { tree := t } = (result, s)) :
    (∀ e, Config.resolve t (current.join a.workspace) a = .error e → s.tree = t) ∧
    ∀ c, Config.resolve t (current.join a.workspace) a = .ok c →
      (∀ e, result = .error e → e.IsRefusal → s.tree = t) ∧
      ∀ q content, IsInput t (current.join a.workspace) c q → t.entryAt q = some (.file content) →
        s.tree.entryAt q = some (.file content) ∨
          isBelow ((current.join a.workspace).join c.exportDir).endpoint q = true := by
  refine ⟨fun e he => ?_, fun c hc => ?_⟩
  · rw [run_of_resolve_error programs current a turns (s := { tree := t }) he] at hrun
    cases hrun
    rfl
  · have habs := Path.isAbsolute_join_of_isAbsolute hcurrent a.workspace
    rw [run_of_resolve_ok programs current a turns (s := { tree := t }) hc] at hrun
    have hensures := @assemble_retains t _ c ht hlinks habs turns _
      (fun interfaces => finish programs (current.join a.workspace) a c >>= fun _ =>
        pure (summaryOf a c interfaces))
      fun interfaces t₁ here => (keeps_finish programs (current.join a.workspace) a c).bind fun _ =>
        Keeps.pure (summaryOf a c interfaces)
    have hretains : Retains t ((current.join a.workspace).join c.exportDir).endpoint s.tree ∧
        ∀ e, result = .error e → e.IsRefusal → s.tree = t := by
      cases result with
      | ok summary => exact ⟨hensures.ok rfl hrun, nofun⟩
      | error e =>
        obtain ⟨hretains, hrefusal⟩ := hensures.error rfl hrun
        refine ⟨hretains, fun e' he' => ?_⟩
        cases he'
        exact hrefusal
    refine ⟨hretains.2, fun q content _ hfile => ?_⟩
    by_cases hq : isBelow ((current.join a.workspace).join c.exportDir).endpoint q = true
    · exact .inr hq
    · exact .inl (hretains.1.kept q _ hq hfile)

/-- The place of the compiled form of the compiled project's interface. -/
def compiledForm : Place :=
  ["ws", "out", "IA.sol", "IA.json"].map fun n : String => Utf8.encode n.toList

/-- It is an input, whatever the configuration says of the export directory. -/
theorem isInput_compiledForm {c : Config} (hout : c.outDir = Config.standard.outDir)
    (hinterfaces : c.interfacesDir = Config.standard.interfacesDir)
    (hglob : c.interfacesGlob = Config.standard.interfacesGlob) :
    IsInput compiledProject (Path.join ['/', 'w', 's'] ['.']) c compiledForm := by
  have hroot : compiledProject.lookup
      ((Path.join ['/', 'w', 's'] ['.']).join Config.standard.interfacesDir)
      = .ok (["ws", "solidity", "interfaces"].map fun n : String => Utf8.encode n.toList,
        .directory) := by rfl
  have hartifact : compiledProject.lookup
      (artifactPath (Path.join ['/', 'w', 's'] ['.']) Config.standard "IA.sol" "IA")
      = .ok (compiledForm, .file (Utf8.encode "[]")) := by rfl
  have hplaces : ∀ {p : Path} {q : Place} {e : Entry}, compiledProject.lookup p = .ok (q, e) →
      compiledProject.Denotes p q := fun hlookup =>
    (denotes_of_lookup (IsProper.sound (by decide +kernel)) hlookup).1
  have hsame : artifactPath (Path.join ['/', 'w', 's'] ['.']) c "IA.sol" "IA"
      = artifactPath (Path.join ['/', 'w', 's'] ['.']) Config.standard "IA.sol" "IA" := by
    rw [artifactPath, artifactPath, hout]
  have hns : IsInterface compiledProject
      (["ws", "solidity", "interfaces"].map fun n : String => Utf8.encode n.toList)
      Config.standard.interfacesGlob ["sub", "IA.sol"] := by
    refine ⟨by decide, ⟨Utf8.encode "import 'types/T.sol';", by rfl⟩, ?_⟩
    have hmatch : (match Glob.tokens Config.standard.interfacesGlob with
      | .ok tokens => Glob.isMatch tokens (Utf8.encode (slashed ["sub", "IA.sol"]))
      | .error _ => false) = true := by decide +kernel
    cases htokens : Glob.tokens Config.standard.interfacesGlob with
    | error fault =>
      rw [htokens] at hmatch
      cases hmatch
    | ok tokens =>
      rw [htokens] at hmatch
      exact ⟨tokens, rfl, hmatch⟩
  rw [← hinterfaces] at hroot
  rw [← hglob] at hns
  rw [← hsame] at hartifact
  exact .artifact (hplaces hroot) hns rfl (hplaces hartifact)

/-- An export of the compiled project leaves the compiled form of its interface alone. -/
theorem run_spares_inputs_compiledProject :
    Config.resolve compiledProject (Path.join ['/', 'w', 's'] ['.']) exportOnly
        = .ok (Config.standard.overlay exportOnly.layer) ∧
      IsInput compiledProject (Path.join ['/', 'w', 's'] ['.'])
        (Config.standard.overlay exportOnly.layer) compiledForm ∧
      (outcome (run noPrograms ['/', 'w', 's'] exportOnly)
        { tree := compiledProject }).2.tree.entryAt compiledForm
          = some (.file (Utf8.encode "[]")) := by
  have hresolve : Config.resolve compiledProject (Path.join ['/', 'w', 's'] ['.']) exportOnly
      = .ok (Config.standard.overlay exportOnly.layer) :=
    resolve_of_no_file rfl (by decide +kernel)
  have hinput : IsInput compiledProject (Path.join ['/', 'w', 's'] ['.'])
      (Config.standard.overlay exportOnly.layer) compiledForm :=
    isInput_compiledForm rfl rfl rfl
  refine ⟨hresolve, hinput, ?_⟩
  cases hrun : outcome (run noPrograms ['/', 'w', 's'] exportOnly) { tree := compiledProject } with
  | mk result s =>
    have hfile : compiledProject.entryAt compiledForm = some (.file (Utf8.encode "[]")) := by rfl
    have hspared := ((run_spares_inputs noPrograms (t := compiledProject) (by decide +kernel)
      (by decide +kernel) rfl hrun).2 _ hresolve).2 _ _ hinput hfile
    exact hspared.resolve_right (by decide +kernel)

/-- The same export into the compiler's output directory. -/
def exportIntoOut : Arguments := { exportOnly with exportDir := some "out" }

/-- That directory is not refused, although it holds an input, which is lost. -/
theorem run_loses_compiledForm :
    compiledProject.IsProper ∧ compiledProject.IsLinkless ∧
      Config.resolve compiledProject (Path.join ['/', 'w', 's'] ['.']) exportIntoOut
        = .ok (Config.standard.overlay exportIntoOut.layer) ∧
      IsInput compiledProject (Path.join ['/', 'w', 's'] ['.'])
        (Config.standard.overlay exportIntoOut.layer) compiledForm ∧
      compiledProject.entryAt compiledForm = some (.file (Utf8.encode "[]")) ∧
      (outcome (run noPrograms ['/', 'w', 's'] exportIntoOut)
        { tree := compiledProject }).2.tree.entryAt compiledForm = none :=
  ⟨by decide +kernel, by decide +kernel, resolve_of_no_file rfl (by decide +kernel),
    isInput_compiledForm rfl rfl rfl, rfl, by decide +kernel⟩

end InterfacePackage.Export
