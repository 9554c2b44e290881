import InterfacePackage.Proofs.Export.Emptied
import InterfacePackage.Proofs.Export.Order

/-!
# Exports forget what was in their directory

Two trees that hold the same outside of the export directory are the same once that directory is
prepared, so exports of both come to the same. As a package holds nothing but what can be removed
again, exporting once more changes nothing. Main statement: `run_forgets`.
-/

namespace InterfacePackage.Export

open FileTree

variable {t t' : FileTree} {workspace dir path : Path} {c : Config} {s s' : Session} {here : Place}
  {n : Name}

/-! ## What an export leaves in its directory -/

/-- The names in the directory of a package. -/
def packageNames : List Name :=
  frontNames ++ [Utf8.encode "contracts", Utf8.encode "abi"]

/-- What has one of the names of a package can be removed from a directory into which a manifest can
be written. -/
theorem removable_of_mem_packageNames (hvet : vet (dir.join "package.json") = .ok ())
    (hn : n ∈ packageNames) : Removable dir n := by
  have hall : ∀ text ∈ (["package.json", "README.md", "LICENSE", "contracts", "abi"] : List Text),
      IsNormal text ∧ '\x00' ∉ text ∧
        (Utf8.encode text).length ≤ (Utf8.encode "package.json").length := by decide
  obtain ⟨text, htext, rfl⟩ : ∃ text ∈
      (["package.json", "README.md", "LICENSE", "contracts", "abi"] : List Text),
      Utf8.encode text = n := List.mem_map.1 hn
  obtain ⟨hnormal, hzero, hlength⟩ := hall text htext
  exact ⟨Nat.le_trans hlength (by decide), text, Utf8.decode_encode text,
    vet_join (by decide) hnormal hzero hlength hvet⟩

/-! ## What follows on the prepared directory -/

/-- Putting a package into a settled directory fills it under the names of a package. -/
theorem keeps_pack (h : Settled t (workspace.join c.exportDir) here)
    (habs : workspace.isAbsolute = true) (turns : List Nat) :
    Keeps (Within t here (· ∈ packageNames)) (pack workspace c turns) := by
  have hwithstands := withstands_within h (· ∈ packageNames)
  have hfront : Keeps (Within t here (· ∈ packageNames))
      (writeFront workspace (workspace.join c.exportDir) c) :=
    hwithstands.writeFront h.absolute (by decide) (by decide) (by decide)
  exact hfront.bind fun _ => hwithstands.packInterfaces habs (by decide) (by decide) turns

/-- A manifest can be written into a directory that has been packed. -/
theorem vet_of_pack {turns : List Nat} {interfaces : List ExportedInterface}
    (hrun : outcome (pack workspace c turns) s = (.ok interfaces, s')) :
    vet ((workspace.join c.exportDir).join "package.json") = .ok () := by
  obtain ⟨_, s₁, hfront, -⟩ := outcome_bind_eq_ok.1 hrun
  obtain ⟨project, s₂, -, hrest⟩ := outcome_bind_eq_ok.1 hfront
  obtain ⟨_, s₃, hwrite, -⟩ := outcome_bind_eq_ok.1 hrest
  obtain ⟨q, hplace, -⟩ := write_ok (eq_ok_of_alter_change hwrite)
  exact (place_eq_ok_iff.1 hplace).1

/-- An export in a session in which the configuration can be resolved and the export directory
prepared is one that goes on from there. -/
theorem run_of_prepare_ok (programs : Programs) (current : Path) (a : Arguments)
    (turns : List Nat)
    (hresolve : Config.resolve s.tree (current.join a.workspace) a = .ok c)
    (hprepare : outcome (prepare (current.join a.workspace)
      ((current.join a.workspace).join c.exportDir)) s = (.ok (), s')) :
    outcome (run programs current a turns) s
      = outcome (pack (current.join a.workspace) c turns >>= fun interfaces =>
          finish programs (current.join a.workspace) a c >>= fun _ =>
            pure (summaryOf a c interfaces)) s' := by
  rw [run_of_resolve_ok programs current a turns hresolve, assemble, bind_assoc, outcome_bind,
    hprepare]

/-! ## The configuration -/

/-- The path of the configuration file. -/
def configPath (workspace : Path) (a : Arguments) : Path :=
  workspace.join (a.config.getD Config.fileName)

/-- The configuration is the same in trees that agree outside of a directory which its file is not
in. -/
theorem resolve_of_agrees {a : Arguments} (hagrees : AgreesOutside here t t') (ht : t.IsProper)
    (ht' : t'.IsProper) (hlinks : t.IsLinkless) (habs : workspace.isAbsolute = true)
    (hup : .up ∉ (configPath workspace a).route)
    (hout : ¬ isBelow here (configPath workspace a).endpoint = true) :
    Config.resolve t' workspace a = Config.resolve t workspace a := by
  have habsPath := Path.isAbsolute_join_of_isAbsolute habs (a.config.getD Config.fileName)
  have hread : t'.readText (configPath workspace a) = t.readText (configPath workspace a) :=
    hagrees.readText ht.sound ht'.sound hlinks habsPath hup hout
  have hload : Layer.load t' (configPath workspace a) = Layer.load t (configPath workspace a) := by
    rw [Layer.load, Layer.load, hread]
  have hexists : t'.exists? (configPath workspace a) = t.exists? (configPath workspace a) :=
    hagrees.exists? ht.sound ht'.sound hlinks habsPath hup hout
  have hfile : Config.fileLayer t' workspace a = Config.fileLayer t workspace a := by
    unfold Config.fileLayer
    unfold configPath at hload hexists
    cases hconfig : a.config with
    | some p =>
      rw [hconfig, Option.getD_some] at hload
      exact hload
    | none =>
      rw [hconfig, Option.getD_none] at hload hexists
      dsimp only
      rw [hexists, hload]
  rw [Config.resolve, Config.resolve, hfile]

/-! ## Two exports -/

section

variable {programs : Programs} {current : Path} {a : Arguments} {turns : List Nat}
  {summary : Summary}

/-- After a successful export the directory can be prepared again, and that leaves the same as the
first time. -/
theorem prepare_again (h : Stands t ((current.join a.workspace).join c.exportDir) here)
    (habs : (current.join a.workspace).isAbsolute = true)
    (hresolve : Config.resolve t (current.join a.workspace) a = .ok c)
    (hrun : outcome (run programs current a turns) { tree := t } = (.ok summary, s)) :
    s.tree.IsProper ∧ s.tree.IsLinkless ∧ t.clear here = s.tree.clear here ∧
      ∃ s₁, outcome (prepare (current.join a.workspace)
          ((current.join a.workspace).join c.exportDir)) { tree := t } = (.ok (), s₁) ∧
        ∃ s₂, outcome (prepare (current.join a.workspace)
          ((current.join a.workspace).join c.exportDir)) { tree := s.tree } = (.ok (), s₂) := by
  -- what is packed is put into the cleared directory
  obtain ⟨_, s₁, hprepare, hpacked⟩ : ∃ u s₁, outcome (prepare (current.join a.workspace)
      ((current.join a.workspace).join c.exportDir)) { tree := t } = (.ok u, s₁) ∧
      outcome (pack (current.join a.workspace) c turns >>= fun interfaces =>
        finish programs (current.join a.workspace) a c >>= fun _ =>
          pure (summaryOf a c interfaces)) s₁ = (.ok summary, s) := by
    rw [run_of_resolve_ok programs current a turns (s := { tree := t }) hresolve, assemble,
      bind_assoc] at hrun
    exact outcome_bind_eq_ok.1 hrun
  obtain ⟨⟨hguard, -⟩, rfl⟩ := (prepare_eq_ok_iff (s := { tree := t }) h).1 hprepare
  have hclear := h.clear
  have hkeeps := (keeps_pack hclear.settled habs turns).bind fun interfaces =>
    (keeps_finish programs (current.join a.workspace) a c).bind fun _ =>
      Keeps.pure (summaryOf a c interfaces)
  have hwithin : Within (t.clear here) here (· ∈ packageNames) s.tree :=
    hkeeps.ok (.refl hclear.proper here _) hpacked
  have hproper := hwithin.fills.proper
  have hlinks : s.tree.IsLinkless := hwithin.fills.isLinkless hclear.linkless
  have hstands := hclear.of_agrees (.of_fills hwithin.fills) hproper hlinks
  -- so all there is can be removed
  obtain ⟨interfaces, s₂, hpack, -⟩ := outcome_bind_eq_ok.1 hpacked
  have hremovable : ∀ n, s.tree.entryAt (here ++ [n]) ≠ none →
      Removable ((current.join a.workspace).join c.exportDir) n := by
    intro n hsome
    refine removable_of_mem_packageNames (vet_of_pack hpack)
      (Classical.byContradiction fun hn => ?_)
    rw [hwithin.same n [] hn, entryAt_clear, if_pos (isBelow_append here (List.cons_ne_nil n []))]
      at hsome
    exact hsome rfl
  have hagain := (prepare_eq_ok_iff (s := { tree := s.tree }) hstands).2
    ⟨⟨hguard, hremovable⟩, rfl⟩
  refine ⟨hproper, hlinks, ?_, _, hprepare, _, hagain⟩
  refine ext_entryAt ?_ (fun q => ?_) hwithin.fills.start.symm
  · rw [root_clear s.tree, hwithin.root]
  · rw [entryAt_clear, entryAt_clear]
    split
    · rfl
    · rename_i hq
      rw [hwithin.fills.entryAt_eq hq, entryAt_clear, if_neg hq]

end

/-- Exports of two trees that hold the same outside of the directory come by the same turns to the
same once the directory is prepared in both. -/
theorem run_of_clear_eq {programs : Programs} {current : Path} {a : Arguments} {t₁ t₂ : FileTree}
    (hstands : Stands t₁ ((current.join a.workspace).join c.exportDir) here)
    (ht₂ : t₂.IsProper) (hlinks₂ : t₂.IsLinkless)
    (habs : (current.join a.workspace).isAbsolute = true)
    (hup : .up ∉ (configPath (current.join a.workspace) a).route)
    (hconfig : ¬ isBelow here (configPath (current.join a.workspace) a).endpoint = true)
    (hresolve : Config.resolve t₁ (current.join a.workspace) a = .ok c)
    (hsame : t₁.clear here = t₂.clear here) {s₁ s₂ : Session}
    (hprepare₁ : outcome (prepare (current.join a.workspace)
      ((current.join a.workspace).join c.exportDir)) { tree := t₁ } = (.ok (), s₁))
    (hprepare₂ : outcome (prepare (current.join a.workspace)
      ((current.join a.workspace).join c.exportDir)) { tree := t₂ } = (.ok (), s₂))
    (turns : List Nat) :
    outcome (run programs current a turns) { tree := t₁ }
      = outcome (run programs current a turns) { tree := t₂ } := by
  have hagrees := AgreesOutside.of_clear_eq hsame
  have hresolve₂ : Config.resolve t₂ (current.join a.workspace) a = .ok c := by
    rw [resolve_of_agrees hagrees hstands.proper ht₂ hstands.linkless habs hup hconfig, hresolve]
  obtain ⟨-, hs₁⟩ := (prepare_eq_ok_iff (s := { tree := t₁ }) hstands).1 hprepare₁
  obtain ⟨-, hs₂⟩ := (prepare_eq_ok_iff (s := { tree := t₂ })
    (hstands.of_agrees hagrees ht₂ hlinks₂)).1 hprepare₂
  have hs : s₁ = s₂ := by
    rw [hs₁, hs₂]
    simp only [hsame]
  rw [run_of_prepare_ok programs current a turns (s := { tree := t₁ }) hresolve hprepare₁,
    run_of_prepare_ok programs current a turns (s := { tree := t₂ }) hresolve₂ hprepare₂, hs]

/-- Nothing that was in the export directory leaks into an export. Two trees without links that hold
the same outside of it come by the same turns to the same result, the same calls and the same tree,
if no path climbs, the configuration file is not in the directory, and the directory can be prepared
in both. So when an export has succeeded, exporting once more changes nothing. If its interfaces do
not come in each other's way this is so by any turns. -/
theorem run_forgets (programs : Programs) {current : Path} {a : Arguments} {t₁ t₂ : FileTree}
    (ht₁ : t₁.IsProper) (ht₂ : t₂.IsProper) (hlinks₁ : t₁.IsLinkless) (hlinks₂ : t₂.IsLinkless)
    (hcurrent : current.isAbsolute = true)
    (hup : ∀ p ∈ [current, a.workspace, a.config.getD Config.fileName, c.exportDir],
      .up ∉ p.components)
    (hresolve : Config.resolve t₁ (current.join a.workspace) a = .ok c)
    (hconfig : ¬ isBelow here (configPath (current.join a.workspace) a).endpoint = true)
    (hdir : t₁.lookup ((current.join a.workspace).join c.exportDir) = .ok (here, .directory))
    (hsame : t₁.clear here = t₂.clear here) (turns : List Nat) :
    (∀ s₁ s₂, outcome (prepare (current.join a.workspace)
        ((current.join a.workspace).join c.exportDir)) { tree := t₁ } = (.ok (), s₁) →
      outcome (prepare (current.join a.workspace)
        ((current.join a.workspace).join c.exportDir)) { tree := t₂ } = (.ok (), s₂) →
      outcome (run programs current a turns) { tree := t₁ }
        = outcome (run programs current a turns) { tree := t₂ }) ∧
    ∀ summary s, outcome (run programs current a turns) { tree := t₁ } = (.ok summary, s) →
      outcome (run programs current a turns) { tree := s.tree } = (.ok summary, s) ∧
      ((∀ p ∈ [c.interfacesDir, c.outDir], .up ∉ p.components) →
        (∀ x ∈ summary.interfaces, ¬ isBelow here (artifactPath (current.join a.workspace) c
          (x.source.fileName.getD x.name) x.name).endpoint = true) →
        (∀ x ∈ summary.interfaces, ∀ y ∈ summary.interfaces, x.name = y.name →
          x.source.fileName = y.source.fileName) →
        ∀ other, outcome (run programs current a other) { tree := t₁ } = (.ok summary, s) ∧
          outcome (run programs current a other) { tree := s.tree } = (.ok summary, s)) := by
  have habs := Path.isAbsolute_join_of_isAbsolute hcurrent a.workspace
  have hlevel : .up ∉ (current.join a.workspace).route :=
    up_notMem_route_join (up_notMem_route (hup _ (by simp))) (up_notMem_route (hup _ (by simp)))
  have hconfigLevel : .up ∉ (configPath (current.join a.workspace) a).route :=
    up_notMem_route_join hlevel (up_notMem_route (hup _ (by simp)))
  have hstands : Stands t₁ ((current.join a.workspace).join c.exportDir) here :=
    ⟨ht₁, hlinks₁, Path.isAbsolute_join_of_isAbsolute habs c.exportDir,
      up_notMem_route_join hlevel (up_notMem_route (hup _ (by simp))), hdir⟩
  refine ⟨fun s₁ s₂ hprepare₁ hprepare₂ => run_of_clear_eq hstands ht₂ hlinks₂ habs hconfigLevel
    hconfig hresolve hsame hprepare₁ hprepare₂ turns, fun summary s hrun => ?_⟩
  -- the second export starts with the tree that the first one leaves
  obtain ⟨hproper, hlinks, hclear, s₁, hfirst, s₂, hagain⟩ :=
    prepare_again hstands habs hresolve hrun
  have hrepeat := @run_of_clear_eq c here programs current a t₁ s.tree hstands hproper hlinks habs
    hconfigLevel hconfig hresolve hclear s₁ s₂ hfirst hagain
  refine ⟨by rw [← hrepeat turns, hrun], fun hupSources houtside hnames other => ?_⟩
  obtain rfl := (denotes_of_lookup ht₁.sound hdir).1.eq_endpoint hlinks₁ hstands.absolute
  have hother := run_any_order programs ht₁ hlinks₁ hcurrent (fun p hp => ?_) hresolve hrun houtside
    hnames other
  · exact ⟨hother, by rw [← hrepeat other, hother]⟩
  · simp only [List.mem_cons, List.not_mem_nil, or_false] at hp
    rcases hp with rfl | rfl | rfl | hp
    · exact hup _ (by simp)
    · exact hup _ (by simp)
    · exact hup _ (by simp)
    · exact hupSources p (by simpa using hp)

/-- What is a success has come to a result. -/
theorem exists_of_isOk {act : Action Unit} (h : (outcome act s).1.isOk = true) :
    ∃ s', outcome act s = (.ok (), s') := by
  cases hrun : outcome act s with
  | mk result s' =>
    rw [hrun] at h
    cases result with
    | ok _ => exact ⟨s', rfl⟩
    | error e => cases h

/-- The twin project with something else left in the export directory as well. -/
def clutteredProject : FileTree :=
  twinProject.put (["ws", "npm", "IB.sol"].map fun n : String => Utf8.encode n.toList)
    (.file (Utf8.encode "import 'types/T.sol';"))

/-- Both exports of the project by the same turns leave the same package, and so does every other
one by any turns. -/
theorem run_forgets_clutteredProject :
    ∃ summary s,
      outcome (run noPrograms ['/', 'w', 's'] exportOnly crossingTurns) { tree := twinProject }
        = (.ok summary, s) ∧
      summary.interfaces.map (·.name) = ["IA".toList, "IB".toList, "IA".toList] ∧
      outcome (run noPrograms ['/', 'w', 's'] exportOnly crossingTurns) { tree := clutteredProject }
        = (.ok summary, s) ∧
      ∀ other,
        outcome (run noPrograms ['/', 'w', 's'] exportOnly other) { tree := twinProject }
          = (.ok summary, s) ∧
        outcome (run noPrograms ['/', 'w', 's'] exportOnly other) { tree := s.tree }
          = (.ok summary, s) := by
  have hsummary : (match (outcome (run noPrograms ['/', 'w', 's'] exportOnly crossingTurns)
      { tree := twinProject }).1 with
    | .ok summary => decide (summary.interfaces.map (·.name)
        = ["IA".toList, "IB".toList, "IA".toList] ∧
      (∀ x ∈ summary.interfaces, ¬ isBelow [Utf8.encode ['w', 's'], Utf8.encode ['n', 'p', 'm']]
        (artifactPath (Path.join ['/', 'w', 's'] ['.']) (Config.standard.overlay exportOnly.layer)
          (x.source.fileName.getD x.name) x.name).endpoint = true) ∧
      ∀ x ∈ summary.interfaces, ∀ y ∈ summary.interfaces, x.name = y.name →
        x.source.fileName = y.source.fileName)
    | .error _ => false) = true := by
    simp only [run, assemble, pack, packInterfaces, fillPackage, findInterfaces, filesWhere_eq]
    decide +kernel
  have hprepare : ∀ t ∈ [twinProject, clutteredProject],
      (outcome (prepare (Path.join ['/', 'w', 's'] ['.'])
        ((Path.join ['/', 'w', 's'] ['.']).join ['n', 'p', 'm'])) { tree := t }).1.isOk = true := by
    decide +kernel
  have hforgets := @run_forgets (Config.standard.overlay exportOnly.layer)
    [Utf8.encode ['w', 's'], Utf8.encode ['n', 'p', 'm']] noPrograms ['/', 'w', 's'] exportOnly
    twinProject clutteredProject (by decide +kernel) (by decide +kernel) (by decide +kernel)
    (by decide +kernel) rfl (by decide) (resolve_of_no_file rfl (by decide +kernel))
    (by decide +kernel) rfl (clear_put _ _ (by decide +kernel)).symm crossingTurns
  cases hrun : outcome (run noPrograms ['/', 'w', 's'] exportOnly crossingTurns)
      { tree := twinProject } with
  | mk result s =>
    rw [hrun] at hsummary
    cases result with
    | error e => cases hsummary
    | ok summary =>
      obtain ⟨hreported, houtside, hnames⟩ := of_decide_eq_true hsummary
      obtain ⟨s₁, hs₁⟩ := exists_of_isOk (hprepare twinProject (by simp))
      obtain ⟨s₂, hs₂⟩ := exists_of_isOk (hprepare clutteredProject (by simp))
      obtain ⟨-, hother⟩ := hforgets.2 summary s hrun
      exact ⟨summary, s, rfl, hreported, (hforgets.1 s₁ s₂ hs₁ hs₂).symm.trans hrun,
        hother (by decide) houtside hnames⟩

end InterfacePackage.Export
