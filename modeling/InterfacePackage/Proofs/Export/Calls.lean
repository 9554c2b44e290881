import InterfacePackage.Proofs.Export.Confinement
import InterfacePackage.Proofs.Export.Package

/-!
# Calls of an export

Programs are called only once the last interface is in the package. From there on the calls follow a
plan: bindings for one target after the other, then an installation, less what is skipped. The first
call that fails is the last one made. Main statement: `run_calls`.
-/

namespace InterfacePackage.Export

variable {α β : Type} {programs : Programs} {workspace current : Path} {a : Arguments} {c : Config}

/-! ## Parts that call no program -/

/-- A part of an export that calls no program, whatever comes of it. -/
def IsQuiet (act : Action α) : Prop := ∀ s, (outcome act s).2.calls = s.calls

namespace IsQuiet

variable {act : Action α}

theorem pure (x : α) : IsQuiet (Pure.pure x : Action α) := fun _ => rfl

theorem throw (e : Failure) : IsQuiet (MonadExcept.throw e : Action α) := fun _ => rfl

theorem get : IsQuiet (MonadState.get : Action Session) := fun _ => rfl

/-- Two parts one after the other. -/
theorem bind {next : α → Action β} (h : IsQuiet act) (hnext : ∀ x, IsQuiet (next x)) :
    IsQuiet (act >>= next) := by
  intro s
  have hs := h s
  rw [outcome_bind]
  cases hrun : outcome act s with
  | mk result s' =>
    rw [hrun] at hs
    cases result with
    | ok x => exact (hnext x s').trans hs
    | error e => exact hs

/-- One part for each element of a list. -/
theorem forM {f : α → Action Unit} (hf : ∀ x, IsQuiet (f x)) (xs : List α) :
    IsQuiet (xs.forM f) := by
  induction xs with
  | nil => exact .pure ()
  | cons x xs ih => exact (hf x).bind fun _ => ih

/-- Anything that changes nothing but the tree. -/
theorem of_isTreeOnly (h : IsTreeOnly act) : IsQuiet act :=
  fun s => (congrArg Session.calls (h s)).trans rfl

theorem inspect (f : FileTree → Except Failure α) : IsQuiet (Export.inspect f) :=
  .of_isTreeOnly (.inspect f)

theorem alter (act : FileTree.Action Unit) (wrap : Fault → Failure) :
    IsQuiet (Export.alter act wrap) :=
  .of_isTreeOnly (.alter act wrap)

theorem report (line : Text) : IsQuiet (Export.report line) := fun _ => rfl

theorem warn (lines : List Text) : IsQuiet (Export.warn lines) := fun _ => rfl

/-- A file copied. -/
theorem copyFile (source target : Path) : IsQuiet (Export.copyFile source target) :=
  (of_isTreeOnly (.makeParent target)).bind fun _ => .alter _ _

end IsQuiet

/-- Preparing the export directory calls no program. -/
theorem isQuiet_prepare (workspace exportDir : Path) : IsQuiet (prepare workspace exportDir) := by
  have hremove : ∀ entry : Name × Bool, IsQuiet (removeEntry exportDir entry.1 entry.2) := by
    intro entry
    unfold removeEntry
    split
    · apply IsQuiet.throw
    · dsimp only
      split <;> apply IsQuiet.alter
  unfold prepare
  dsimp only
  split
  · exact (IsQuiet.throw _).bind fun _ => IsQuiet.get.bind fun s => by
      split
      · exact (IsQuiet.inspect _).bind (IsQuiet.forM hremove)
      · apply IsQuiet.alter
  · refine IsQuiet.get.bind fun s => ?_
    split
    · exact (IsQuiet.inspect _).bind (IsQuiet.forM hremove)
    · apply IsQuiet.alter

/-- Assembling the package calls no program. -/
theorem isQuiet_assemble (workspace : Path) (c : Config) (turns : List Nat) :
    IsQuiet (assemble workspace c turns) := by
  have hfront : IsQuiet (writeFront workspace (workspace.join c.exportDir) c) :=
    (IsQuiet.inspect _).bind fun _ => (IsQuiet.alter _ _).bind fun _ =>
      (IsQuiet.copyFile _ _).bind fun _ => .copyFile _ _
  have hload : IsQuiet (loadRemappings (workspace.join c.remappings)) :=
    (IsQuiet.inspect _).bind fun _ => (IsQuiet.warn _).bind fun _ => .pure _
  refine (isQuiet_prepare _ _).bind fun _ => hfront.bind fun _ => hload.bind fun table => ?_
  refine (IsQuiet.inspect _).bind fun files => ?_
  refine IsQuiet.bind (.of_isTreeOnly (onlyTree_sideBySide workspace c table turns files))
    fun interfaces => ?_
  exact (IsQuiet.report _).bind fun _ => .pure interfaces

/-! ## Calls planned -/

/-- The package manager of an export: the command line's, else the configuration file's, else the
one whose lock file is nearest, else the first whose program is found. -/
def chosenManager? (programs : Programs) (t : FileTree) (workspace : Path) (a : Arguments)
    (file : Layer) : Option PackageManager :=
  a.packageManager
    <|> (file .packageManager).join
    <|> PackageManager.detect t workspace
    <|> PackageManager.preference.find? fun manager => (programs.find? manager).isSome

/-- The call that generates bindings for a target. -/
def bindingCall (manager : PackageManager) (program : Text) (workspace : Path) (c : Config)
    (target : Text) : Invocation where
  program := program
  arguments := manager.runArguments ++
    (["typechain", "--target", target, "--out-dir", c.exportDir.join target,
      c.exportDir.join "abi" ++ "/*.json"] : List Text)
  directory := workspace

/-- The call that installs the package's dependencies. -/
def installCall (program : Text) (workspace : Path) (c : Config) : Invocation where
  program := program
  arguments := ["install"]
  directory := workspace.join c.exportDir

/-- The calls that an export plans to make once the package is assembled, or why it can make
none. -/
def planCalls (programs : Programs) (t : FileTree) (workspace : Path) (a : Arguments)
    (file : Layer) (c : Config) : Except Failure (List Invocation) :=
  if a.skipCodegen && a.skipInstall then .ok []
  else match chosenManager? programs t workspace a file with
    | none => .error .noPackageManager
    | some manager =>
      match programs.find? manager with
      | none => .error (.program (.notInstalled manager))
      | some program => .ok <|
        (if a.skipCodegen then [] else c.targets.map (bindingCall manager program workspace c)) ++
        (if a.skipInstall then [] else [installCall program workspace c])

/-- The configured package manager is the command line's, else the configuration file's. -/
theorem packageManager_overlay (a : Arguments) (file : Layer) :
    ((Config.standard.overlay file).overlay a.layer).packageManager
      = (a.packageManager <|> (file .packageManager).join) := by
  show (a.packageManager.map some).getD ((file .packageManager).getD none) = _
  cases a.packageManager with
  | some manager => rfl
  | none => cases file .packageManager <;> rfl

/-! ## Calls carried out -/

/-- A call made after others ends its program with code zero. -/
def Succeeds (execute : Executor) (before : List Invocation) (i : Invocation) : Prop :=
  ∃ output, execute before i = .ok output ∧ output.code = some 0

/-- A call made after others fails: its program does not start, or it ends with another code or by a
signal. -/
inductive Fails (execute : Executor) (before : List Invocation) (i : Invocation) :
    RunFault → Prop
  | notStarted {fault : RunFault} (h : execute before i = .error fault) :
      Fails execute before i fault
  | ended {output : Output} (h : execute before i = .ok output) (hcode : output.code ≠ some 0) :
      Fails execute before i (.failed i.display (output.code.getD (-1)) output.stderr)

/-- Calls made one after another all succeed. -/
def AllSucceed (execute : Executor) (calls : List Invocation) : Prop :=
  ∀ before i after, calls = before ++ i :: after → Succeeds execute before i

/-- How planned calls end, and which of them are made: all of them if all succeed, else those up to
and including the first that fails. -/
inductive CarriedOut (execute : Executor) (planned : List Invocation) :
    Except RunFault Unit → List Invocation → Prop
  | completed (h : AllSucceed execute planned) : CarriedOut execute planned (.ok ()) planned
  | stopped {before after : List Invocation} {i : Invocation} {fault : RunFault}
      (hplanned : planned = before ++ i :: after) (hbefore : AllSucceed execute before)
      (hfails : Fails execute before i fault) :
      CarriedOut execute planned (.error fault) (before ++ [i])

theorem allSucceed_nil (execute : Executor) : AllSucceed execute [] := by
  intro before i after h
  simp at h

/-- One more call. -/
theorem AllSucceed.snoc {execute : Executor} {calls : List Invocation} {i : Invocation}
    (h : AllSucceed execute calls) (hi : Succeeds execute calls i) :
    AllSucceed execute (calls ++ [i]) := by
  intro before j after heq
  rcases List.eq_nil_or_concat after with rfl | ⟨rest, last, rfl⟩
  · obtain ⟨rfl, hsame⟩ := List.append_inj' heq rfl
    cases hsame
    exact hi
  · rw [List.concat_eq_append, ← List.cons_append, ← List.append_assoc] at heq
    exact h before j rest (List.append_inj_left' heq rfl)

variable {execute : Executor} {planned done left : List Invocation} {t : FileTree} {file : Layer}

/-- The calls on record, all of which succeeded. -/
def HasMade (execute : Executor) (done : List Invocation) (s : Session) : Prop :=
  s.calls = done ∧ AllSucceed execute done

/-- A failure that the first failing one of the planned calls ends an export with. -/
def StopsAt (execute : Executor) (planned : List Invocation) (e : Failure) (s : Session) : Prop :=
  ∃ fault, e = .program fault ∧ CarriedOut execute planned (.error fault) s.calls

/-- A report makes no call. -/
theorem ensures_report {fail : Failure → Session → Prop} (message : Text) :
    Ensures (HasMade programs.execute done) (report message)
      (fun _ => HasMade programs.execute done) fail := fun _ hs => hs

/-- A request puts its call on record, and fails as the call does. -/
theorem ensures_call (programs : Programs) (r : Runner) (q : Request)
    (hplanned : planned = done ++ r.invocation q :: left) :
    Ensures (HasMade programs.execute done) (call programs r q)
      (fun _ => HasMade programs.execute (done ++ [r.invocation q]))
      (StopsAt programs.execute planned) := by
  rintro s ⟨rfl, hdone⟩
  rw [call, outcome_bind, outcome_get]
  dsimp only
  rw [outcome_bind, outcome_set]
  dsimp only
  unfold Runner.request
  cases hexecute : programs.execute s.calls (r.invocation q) with
  | error fault => exact ⟨fault, rfl, .stopped hplanned hdone (.notStarted hexecute)⟩
  | ok output =>
    by_cases hcode : output.code = some 0
    · have hjudge : Runner.judge (r.invocation q) (.ok output) = .ok output := by
        simp [Runner.judge, Output.isSuccess, hcode]
      rw [hjudge]
      exact ⟨rfl, hdone.snoc ⟨output, hexecute, hcode⟩⟩
    · have hjudge : Runner.judge (r.invocation q) (.ok output)
          = .error (.failed (r.invocation q).display (output.code.getD (-1)) output.stderr) := by
        simp [Runner.judge, Output.isSuccess, hcode]
      rw [hjudge]
      exact ⟨_, rfl, .stopped hplanned hdone (.ended hexecute hcode)⟩

/-- Bindings for all targets are one call after the other. -/
theorem ensures_generate (manager : PackageManager) (program : Text)
    (hplanned : planned = c.targets.map (bindingCall manager program workspace c) ++ left) :
    Ensures (HasMade programs.execute [])
      (c.targets.forM (generate programs ⟨manager, program, workspace⟩ c))
      (fun _ => HasMade programs.execute (c.targets.map (bindingCall manager program workspace c)))
      (StopsAt programs.execute planned) := by
  -- before each target, the calls for those in front of it have been made
  refine @Ensures.forM _ _ _ _ (fun front _ => HasMade programs.execute
    (front.map (bindingCall manager program workspace c))) _ c.targets
    fun front target rest htargets => ?_
  rw [htargets, List.map_append, List.map_cons, List.append_assoc, List.cons_append] at hplanned
  have hcall := ensures_call programs ⟨manager, program, workspace⟩
    (.generate target (c.exportDir.join target) c.abiGlob) hplanned
  rw [List.map_append]
  exact (ensures_report _).bind fun _ => hcall

/-- Installing the dependencies is one more call. -/
theorem ensures_install (manager : PackageManager) (program : Text)
    (habs : workspace.isAbsolute = true)
    (hplanned : planned = done ++ [installCall program workspace c]) :
    Ensures (HasMade programs.execute done)
      (install programs ⟨manager, program, workspace⟩ (workspace.join c.exportDir))
      (fun _ => HasMade programs.execute planned) (StopsAt programs.execute planned) := by
  have hinvocation : Runner.invocation ⟨manager, program, workspace⟩
      (.install (workspace.join c.exportDir)) = installCall program workspace c := by
    -- the runner takes an absolute path as it is
    have hsame : workspace.join (workspace.join c.exportDir) = workspace.join c.exportDir :=
      if_pos (Path.isAbsolute_join_of_isAbsolute habs c.exportDir)
    rw [Runner.invocation, hsame]
    rfl
  rw [← hinvocation] at hplanned
  have hcall := ensures_call programs ⟨manager, program, workspace⟩
    (.install (workspace.join c.exportDir)) hplanned
  rw [← hplanned] at hcall
  exact (ensures_report _).bind fun _ => hcall

/-- What a runner is asked for, as far as it is not skipped. -/
def askFor (programs : Programs) (workspace : Path) (a : Arguments) (c : Config) (r : Runner) :
    Action Unit := do
  if !a.skipCodegen then c.targets.forM (generate programs r c)
  if !a.skipInstall then install programs r (workspace.join c.exportDir)

/-- What is left to programs is asked for when a runner is found. -/
theorem finish_eq (programs : Programs) (workspace : Path) (a : Arguments) (c : Config) :
    finish programs workspace a c
      = if a.skipCodegen && a.skipInstall then pure ()
        else inspect (runnerFor programs · workspace c) >>= askFor programs workspace a c := by
  unfold finish askFor
  cases a.skipCodegen <;> cases a.skipInstall <;> rfl

/-- A runner is asked for the planned calls. -/
theorem ensures_askFor (manager : PackageManager) (program : Text)
    (habs : workspace.isAbsolute = true)
    (hplanned : planned =
      (if a.skipCodegen then [] else c.targets.map (bindingCall manager program workspace c)) ++
      (if a.skipInstall then [] else [installCall program workspace c])) :
    Ensures (HasMade programs.execute [])
      (askFor programs workspace a c ⟨manager, program, workspace⟩)
      (fun _ => HasMade programs.execute planned) (StopsAt programs.execute planned) := by
  unfold askFor
  cases hcodegen : a.skipCodegen with
  | false =>
    cases hskip : a.skipInstall with
    | false =>
      simp only [hcodegen, hskip, Bool.false_eq_true, if_false] at hplanned
      exact (ensures_generate manager program hplanned).bind fun _ =>
        ensures_install manager program habs hplanned
    | true =>
      simp only [hcodegen, hskip, Bool.false_eq_true, if_false, if_true] at hplanned
      refine (ensures_generate manager program hplanned).bind fun _ => ?_
      rw [List.append_nil] at hplanned
      exact Ensures.pure fun _ h => hplanned ▸ h
  | true =>
    cases hskip : a.skipInstall with
    | false =>
      simp only [hcodegen, hskip, Bool.false_eq_true, if_false, if_true] at hplanned
      exact ensures_install manager program habs hplanned
    | true =>
      simp only [hcodegen, hskip, if_true] at hplanned
      exact Ensures.pure fun _ h => hplanned ▸ h

/-- A runner for an export works on the workspace. -/
theorem root_of_runnerFor {r : Runner} (h : runnerFor programs t workspace c = .ok r) :
    r.root = workspace := by
  unfold runnerFor at h
  split at h
  · cases h
  · split at h
    · cases h
    · cases h
      rfl

/-- Unless all calls are skipped, they are planned for the runner of the export. -/
theorem planCalls_eq (hskip : ¬ (a.skipCodegen && a.skipInstall) = true)
    (hmanager : c.packageManager = (a.packageManager <|> (file .packageManager).join)) :
    planCalls programs t workspace a file c = (runnerFor programs t workspace c).map fun r =>
      (if a.skipCodegen then [] else c.targets.map (bindingCall r.manager r.program workspace c)) ++
      (if a.skipInstall then [] else [installCall r.program workspace c]) := by
  have hchosen : managerOf? programs t workspace c
      = chosenManager? programs t workspace a file := by
    rw [managerOf?, chosenManager?, hmanager]
    cases a.packageManager <;> rfl
  rw [planCalls, if_neg hskip, runnerFor, hchosen]
  cases chosenManager? programs t workspace a file with
  | none => rfl
  | some manager =>
    dsimp only
    cases programs.find? manager <;> rfl

/-- Without a plan nothing is called. -/
theorem finish_of_planCalls_error {s : Session} {e : Failure}
    (hmanager : c.packageManager = (a.packageManager <|> (file .packageManager).join))
    (hplan : planCalls programs s.tree workspace a file c = .error e) :
    outcome (finish programs workspace a c) s = (.error e, s) := by
  by_cases hskip : (a.skipCodegen && a.skipInstall) = true
  · rw [planCalls, if_pos hskip] at hplan
    cases hplan
  · rw [planCalls_eq hskip hmanager] at hplan
    rw [finish_eq, if_neg hskip, outcome_bind, outcome_inspect]
    cases hrunner : runnerFor programs s.tree workspace c with
    | ok r =>
      rw [hrunner] at hplan
      cases hplan
    | error e' =>
      rw [hrunner] at hplan
      cases hplan
      rfl

/-- What is left to programs follows the plan. -/
theorem ensures_finish (habs : workspace.isAbsolute = true)
    (hmanager : c.packageManager = (a.packageManager <|> (file .packageManager).join))
    (hplan : planCalls programs t workspace a file c = .ok planned) :
    Ensures (fun s => s.tree = t ∧ s.calls = []) (finish programs workspace a c)
      (fun _ => HasMade programs.execute planned) (StopsAt programs.execute planned) := by
  rintro s ⟨rfl, hcalls⟩
  have hnone : HasMade programs.execute [] s := ⟨hcalls, allSucceed_nil _⟩
  by_cases hskip : (a.skipCodegen && a.skipInstall) = true
  · rw [planCalls, if_pos hskip] at hplan
    cases hplan
    rw [finish_eq, if_pos hskip]
    exact hnone
  · rw [planCalls_eq hskip hmanager] at hplan
    rw [finish_eq, if_neg hskip, outcome_bind, outcome_inspect]
    cases hrunner : runnerFor programs s.tree workspace c with
    | ok r =>
      obtain ⟨manager, program, root⟩ := r
      obtain rfl : root = workspace := root_of_runnerFor hrunner
      rw [hrunner] at hplan
      exact ensures_askFor manager program habs (Except.ok.inj hplan).symm s hnone
    | error e =>
      rw [hrunner] at hplan
      cases hplan

/-! ## The calls of a whole export -/

/-- An export calls programs only once its package is complete, in the order of the plan, and stops
at the first call that fails. When the configuration file cannot be read, or any step up to the
export of the last interface fails, no program is called. Otherwise no program is called either if
both kinds of calls are skipped, or if no package manager can be chosen or the program of the chosen
one is not found, which makes the export fail. If there is a plan, the export succeeds when all its
calls do, and fails with the first call that does, after which none is made. -/
theorem run_calls (programs : Programs) {turns : List Nat} (hcurrent : current.isAbsolute = true)
    {result : Except Failure Summary} {s : Session}
    (hrun : outcome (run programs current a turns) { tree := t } = (result, s)) :
    (∀ e, Config.fileLayer t (current.join a.workspace) a = .error e →
      result = .error e ∧ s.calls = []) ∧
    ∀ file c, Config.fileLayer t (current.join a.workspace) a = .ok file →
      c = (Config.standard.overlay file).overlay a.layer →
      (∀ e s₁,
        outcome (assemble (current.join a.workspace) c turns) { tree := t } = (.error e, s₁) →
        result = .error e ∧ s.calls = []) ∧
      ∀ interfaces s₁,
        outcome (assemble (current.join a.workspace) c turns) { tree := t } = (.ok interfaces, s₁) →
        s.tree = s₁.tree ∧
        (∀ e, planCalls programs s₁.tree (current.join a.workspace) a file c = .error e →
          result = .error e ∧ s.calls = []) ∧
        ∀ planned, planCalls programs s₁.tree (current.join a.workspace) a file c = .ok planned →
          ∃ ending, CarriedOut programs.execute planned ending s.calls ∧
            result = (ending.mapError .program).map fun _ => summaryOf a c interfaces := by
  refine ⟨fun e he => ?_, fun file c hfile hc => ?_⟩
  · have hresolve : Config.resolve t (current.join a.workspace) a = .error e := by
      rw [Config.resolve, he]
      rfl
    rw [run_of_resolve_error programs current a turns (s := { tree := t }) hresolve] at hrun
    cases hrun
    exact ⟨rfl, rfl⟩
  have hresolve : Config.resolve t (current.join a.workspace) a = .ok c := by
    rw [Config.resolve, hfile, hc]
    rfl
  have habs := Path.isAbsolute_join_of_isAbsolute hcurrent a.workspace
  have hmanager : c.packageManager = (a.packageManager <|> (file .packageManager).join) := by
    rw [hc, packageManager_overlay]
  have hquiet := isQuiet_assemble (current.join a.workspace) c turns { tree := t }
  rw [run_of_resolve_ok programs current a turns (s := { tree := t }) hresolve,
    outcome_bind] at hrun
  refine ⟨fun e s₁ hassemble => ?_, fun interfaces s₁ hassemble => ?_⟩
  · rw [hassemble] at hrun hquiet
    cases hrun
    exact ⟨rfl, hquiet⟩
  rw [hassemble] at hrun hquiet
  -- what follows on the assembled package leaves the tree alone
  have htree : Keeps (fun t' => t' = s₁.tree) (finish programs (current.join a.workspace) a c
      >>= fun _ => pure (summaryOf a c interfaces)) :=
    (keeps_finish programs _ a c).bind fun _ => .pure _
  refine ⟨?_, fun e hplan => ?_, fun planned hplan => ?_⟩
  · cases result with
    | ok summary => exact htree.ok rfl hrun
    | error e => exact (htree.error rfl hrun).1
  · dsimp only at hrun
    rw [outcome_bind, finish_of_planCalls_error hmanager hplan] at hrun
    cases hrun
    exact ⟨rfl, hquiet⟩
  · dsimp only at hrun
    have hfinish := ensures_finish habs hmanager hplan s₁ ⟨rfl, hquiet⟩
    rw [outcome_bind] at hrun
    cases hend : outcome (finish programs (current.join a.workspace) a c) s₁ with
    | mk ending s₂ =>
      rw [hend] at hrun hfinish
      cases ending with
      | ok _ =>
        cases hrun
        refine ⟨.ok (), ?_, rfl⟩
        rw [hfinish.1]
        exact .completed hfinish.2
      | error e =>
        obtain ⟨fault, rfl, hcarried⟩ := hfinish
        cases hrun
        exact ⟨.error fault, hcarried, rfl⟩

/-- A machine with `yarn` only, on which every second call is ended by a signal. -/
def shakyPrograms : Programs where
  find? manager := if manager = .yarn then some "/bin/yarn" else none
  execute before _ := .ok { code := if before.length % 2 = 0 then some 0 else none }

/-- An export of the project that the command runs in, with bindings for three targets. -/
def threeTargets : Arguments :=
  { workspace := ['.'], targets := ["web3-v1", "web3-v1", "ethers-v6"] }

/-- Of the four calls planned for the compiled project two are made when the second one fails. -/
theorem run_calls_shakyPrograms :
    ∃ s planned fault,
      outcome (run shakyPrograms ['/', 'w', 's'] threeTargets) { tree := compiledProject }
        = (.error (.program fault), s) ∧
      planned.length = 4 ∧ s.calls.length = 2 ∧
      CarriedOut shakyPrograms.execute planned (.error fault) s.calls := by
  have hfile : Config.fileLayer compiledProject (Path.join ['/', 'w', 's'] ['.']) threeTargets
      = .ok .empty := by
    have hmissing : compiledProject.exists?
        ((Path.join ['/', 'w', 's'] ['.']).join Config.fileName) = false := by decide +kernel
    rw [Config.fileLayer, show threeTargets.config = none from rfl]
    dsimp only
    rw [hmissing]
    rfl
  have hend : (outcome (run shakyPrograms ['/', 'w', 's'] threeTargets)
      { tree := compiledProject }).1.isOk = false ∧
      (outcome (run shakyPrograms ['/', 'w', 's'] threeTargets)
        { tree := compiledProject }).2.calls.length = 2 := by decide +kernel
  have hplanned : (match outcome (assemble (Path.join ['/', 'w', 's'] ['.'])
        ((Config.standard.overlay .empty).overlay threeTargets.layer) [])
        { tree := compiledProject } with
      | (.ok _, s₁) =>
        (match planCalls shakyPrograms s₁.tree (Path.join ['/', 'w', 's'] ['.']) threeTargets .empty
            ((Config.standard.overlay .empty).overlay threeTargets.layer) with
          | .ok planned => decide (planned.length = 4)
          | .error _ => false)
      | (.error _, _) => false) = true := by decide +kernel
  cases hrun : outcome (run shakyPrograms ['/', 'w', 's'] threeTargets)
      { tree := compiledProject } with
  | mk result s =>
    have hcalls := (run_calls shakyPrograms rfl hrun).2 .empty _ hfile rfl
    rw [hrun] at hend
    split at hplanned
    · rename_i interfaces s₁ hassemble
      split at hplanned
      · rename_i planned hplan
        obtain ⟨ending, hcarried, rfl⟩ := (hcalls.2 interfaces s₁ hassemble).2.2 planned hplan
        cases ending with
        | ok _ => cases hend.1
        | error fault =>
          exact ⟨s, planned, fault, rfl, of_decide_eq_true hplanned, hend.2, hcarried⟩
      · cases hplanned
    · cases hplanned

end InterfacePackage.Export
