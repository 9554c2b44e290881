import InterfacePackage.Proofs.Settings.Scan

/-!
# Command lines in any order

What a line asks for is told option by option, so that only the order of the values of one option
counts. Arguments are therefore read from whatever line they are written on. Main statement:
`ofWords_in_any_order`.
-/

namespace InterfacePackage.Arguments

open Occurrence (values)

variable {a : Arguments} {o : Switch} {line : List Occurrence}

/-! ## Lines that arguments are written on -/

/-- The name of an output format. -/
def formatName : OutputFormat → Text
  | .human => "human"
  | .json => "json"

/-- The values that are written for an option when a line is to ask for `a`: the value of the
option, or none where that is the default; all targets in order; a package manager in any mixture of
cases. An option that takes no value is written without one, if it is set. -/
def Writes (a : Arguments) : Switch → List Text → Prop
  | .workspace, vs => vs = [a.workspace] ∨ vs = [] ∧ a.workspace = ".".toList
  | .config, vs => vs = a.config.toList
  | .anchor, vs => vs = a.anchor.toList
  | .exportDir, vs => vs = a.exportDir.toList
  | .target, vs => vs = a.targets
  | .packageManager, vs =>
    vs.map (·.map Char.toLower) = (a.packageManager.map PackageManager.name).toList
  | .skipCodegen, vs => vs = if a.skipCodegen then [[]] else []
  | .skipInstall, vs => vs = if a.skipInstall then [[]] else []
  | .output, vs => vs = [formatName a.output] ∨ vs = [] ∧ a.output = .human
  | .verbose, vs => vs = if a.verbose then [[]] else []

/-- A line on which the arguments are written, its options in any order. -/
def IsWrittenBy (a : Arguments) (line : List Occurrence) : Prop := ∀ o, a.Writes o (values o line)

/-- Only values that are right for an option are written for it. -/
theorem admits_of_writes {vs : List Text} {v : Text} (h : a.Writes o vs) (hv : v ∈ vs) :
    o.Admits v := by
  cases o with
  | workspace | config | anchor | exportDir | target => exact trivial
  | packageManager =>
    have hname : v.map Char.toLower ∈ (a.packageManager.map PackageManager.name).toList :=
      h ▸ List.mem_map_of_mem hv
    simp only [Option.mem_toList, Option.map_eq_some_iff] at hname
    obtain ⟨manager, -, heq⟩ := hname
    exact ⟨manager, heq.symm⟩
  | output =>
    rcases h with rfl | ⟨rfl, -⟩
    · rw [List.mem_singleton.1 hv]
      cases a.output with
      | human => exact .inl rfl
      | json => exact .inr rfl
    · cases hv
  | skipCodegen | skipInstall | verbose =>
    have hflag : ∀ b : Bool, v ∈ (if b then [[]] else [] : List Text) → v = [] := by
      rintro (_ | _) hmem
      · cases hmem
      · exact List.mem_singleton.1 hmem
    exact hflag _ (h ▸ hv)

/-- No more than one of them, unless the option may be repeated. -/
theorem length_le_one_of_writes {vs : List Text} (h : a.Writes o vs) (ho : o.repeats = false) :
    vs.length ≤ 1 := by
  have hoption : ∀ x : Option Text, x.toList.length ≤ 1 := by
    rintro (_ | _) <;> simp
  have hflag : ∀ b : Bool, (if b then [[]] else [] : List Text).length ≤ 1 := by
    rintro (_ | _) <;> simp
  cases o with
  | target => cases ho
  | workspace | output =>
    rcases h with rfl | ⟨rfl, -⟩
    · exact Nat.le_refl 1
    · exact Nat.zero_le 1
  | config | anchor | exportDir => exact h ▸ hoption _
  | packageManager =>
    rw [← List.length_map (f := fun v : Text => v.map Char.toLower)]
    exact h ▸ hoption _
  | skipCodegen | skipInstall | verbose => exact h ▸ hflag _

/-- A package manager is told from its name in any mixture of cases, if there is one. -/
theorem manager_of_names {vs : List Text} {manager? : Option PackageManager}
    (h : vs.map (·.map Char.toLower) = (manager?.map PackageManager.name).toList) :
    vs.getLast?.bind PackageManager.ofName? = manager? := by
  cases manager? with
  | none =>
    rw [List.map_eq_nil_iff.1 h]
    rfl
  | some manager =>
    obtain ⟨v, rfl, hname⟩ := List.map_eq_singleton_iff.1 h
    exact ofName?_of_lower hname

/-- A line on which arguments are written asks for them. -/
theorem collect_eq (h : a.IsWrittenBy line) : collect line = a := by
  have hoption : ∀ x : Option Text, x.toList.getLast? = x := by
    rintro (_ | _) <;> rfl
  have hflag : ∀ b : Bool, decide ((if b then [[]] else [] : List Text) ≠ []) = b := by
    rintro (_ | _) <;> rfl
  have hworkspace : (values .workspace line).getLast?.getD ".".toList = a.workspace := by
    rcases h .workspace with hvs | ⟨hvs, ha⟩
    · rw [hvs]
      rfl
    · rw [hvs, ha]
      rfl
  have hmanager : (values .packageManager line).getLast?.bind PackageManager.ofName?
      = a.packageManager := manager_of_names (h .packageManager)
  have houtput : (if (values .output line).getLast? = some "json".toList then OutputFormat.json
      else .human) = a.output := by
    rcases h .output with hvs | ⟨hvs, ha⟩
    · rw [hvs]
      cases a.output <;> rfl
    · rw [hvs, ha]
      rfl
  rw [collect, hworkspace, hmanager, houtput, h .config, h .anchor, h .exportDir, h .target,
    h .skipCodegen, h .skipInstall, h .verbose, hoption, hoption, hoption, hflag, hflag, hflag]

/-- The values that arguments differ from the default in, option by option. -/
def given (a : Arguments) : Switch → List Text
  | .workspace => if a.workspace = ".".toList then [] else [a.workspace]
  | .config => a.config.toList
  | .anchor => a.anchor.toList
  | .exportDir => a.exportDir.toList
  | .target => a.targets
  | .packageManager => (a.packageManager.map PackageManager.name).toList
  | .skipCodegen => if a.skipCodegen then [[]] else []
  | .skipInstall => if a.skipInstall then [[]] else []
  | .output => if a.output = .human then [] else [formatName a.output]
  | .verbose => if a.verbose then [[]] else []

/-- They may be written for the options. -/
theorem writes_given (a : Arguments) (o : Switch) : a.Writes o (a.given o) := by
  cases o with
  | config | anchor | exportDir | target | skipCodegen | skipInstall | verbose => rfl
  | workspace =>
    by_cases h : a.workspace = ".".toList
    · exact .inr ⟨if_pos h, h⟩
    · exact .inl (if_neg h)
  | packageManager =>
    show (a.packageManager.map PackageManager.name).toList.map (·.map Char.toLower) = _
    cases a.packageManager with
    | none => rfl
    | some manager => cases manager <;> rfl
  | output =>
    by_cases h : a.output = .human
    · exact .inr ⟨if_pos h, h⟩
    · exact .inl (if_neg h)

/-- Arguments can be written on a line. -/
theorem exists_isWrittenBy (a : Arguments) : ∃ line, a.IsWrittenBy line := by
  refine ⟨Switch.all.flatMap fun o => (a.given o).map (Occurrence.mk o), fun o => ?_⟩
  have hvalues : ∀ (p : Switch) (vs : List Text),
      values o (vs.map (Occurrence.mk p)) = if p = o then vs else [] := by
    intro p vs
    rw [values, List.filter_map, List.map_map]
    split
    · rename_i hp
      simp [Function.comp_def, hp]
    · rename_i hp
      simp [Function.comp_def, hp]
  have hgiven : values o (Switch.all.flatMap fun o => (a.given o).map (Occurrence.mk o))
      = a.given o := by
    cases o <;> simp [Switch.all, Occurrence.values_append, hvalues]
  rw [hgiven]
  exact a.writes_given o

/-- The options of a command line may come in any order, as long as the targets keep theirs:
arguments can be written on a line, and whatever line they are written on is read as those
arguments. One more option anywhere on it, with a value that is right for it and in any of the
wordings, is a conflict if the option is there already and may not be repeated. -/
theorem ofWords_in_any_order (a : Arguments) :
    (∃ line, a.IsWrittenBy line) ∧
    ∀ line, a.IsWrittenBy line →
      ofWords (line.map Occurrence.word) = .ok a ∧
      ∀ (front back : List Occurrence) (x : Occurrence) (words : List Text), line = front ++ back →
        x.option ≠ .target → (∃ y ∈ line, y.option = x.option) → x.option.Admits x.value →
        x.Spells words →
        ofWords (front.map Occurrence.word ++ words ++ back.map Occurrence.word)
          = .error .argumentConflict := by
  refine ⟨a.exists_isWrittenBy, fun line hline => ?_⟩
  have hadmits : ∀ x ∈ line, x.option.Admits x.value := fun x hx =>
    admits_of_writes (hline x.option) (Occurrence.mem_values hx)
  refine ⟨?_, ?_⟩
  · have honce : Occurrence.Once ([] ++ line) := fun o ho => length_le_one_of_writes (hline o) ho
    have hread := ofWords_flatten (Occurrence.spells_map line) hadmits
    rw [Occurrence.flatten_map_word, Occurrence.foldlM_add_of_once honce, List.nil_append] at hread
    rw [hread, ← collect_eq hline]
    rfl
  · rintro front back x words rfl htarget ⟨y, hy, hyx⟩ hx hspells
    have hwordings := List.rel_append (Occurrence.spells_map front)
      (List.Forall₂.cons hspells (Occurrence.spells_map back))
    have hmore : ∀ z ∈ front ++ x :: back, z.option.Admits z.value := by
      intro z hz
      rcases List.mem_cons.1 (List.perm_middle.mem_iff.1 hz) with rfl | hz
      · exact hx
      · exact hadmits z hz
    have htwice : ¬ Occurrence.Once ([] ++ (front ++ x :: back)) :=
      Occurrence.not_once_of_mem (Switch.repeats_of_ne htarget) ⟨y, hy, hyx⟩
    have hnone : Occurrence.Once [] := fun _ _ => Nat.zero_le 1
    have hread := ofWords_flatten hwordings hmore
    rw [List.flatten_append, List.flatten_cons, Occurrence.flatten_map_word,
      Occurrence.flatten_map_word, Occurrence.foldlM_add_of_not_once hnone htwice,
      ← List.append_assoc] at hread
    exact hread

/-- Arguments with an empty value, one that looks like an option, and a target that comes twice. -/
def awkwardArguments : Arguments where
  workspace := []
  config := some "--config=x".toList
  targets := ["b".toList, "=".toList, "b".toList]
  packageManager := some .bun
  output := .json
  verbose := true

/-- A line on which they are written. -/
def awkwardLine : List Occurrence :=
  [⟨.target, "b".toList⟩, ⟨.packageManager, "bUN".toList⟩, ⟨.verbose, []⟩, ⟨.target, "=".toList⟩,
    ⟨.output, "json".toList⟩, ⟨.config, "--config=x".toList⟩, ⟨.workspace, []⟩,
    ⟨.target, "b".toList⟩]

/-- The line is read as them, and refused with a further `-v` after its first two words. -/
theorem ofWords_in_any_order_awkwardLine :
    awkwardArguments.IsWrittenBy awkwardLine ∧
      ofWords ["--target=b", "--package-manager=bUN", "--verbose", "--target==", "--output=json",
        "--config=--config=x", "--workspace=", "--target=b"] = .ok awkwardArguments ∧
      ofWords ["--target=b", "--package-manager=bUN", "-v", "--verbose", "--target==",
        "--output=json", "--config=--config=x", "--workspace=", "--target=b"]
        = .error .argumentConflict := by
  have hline : awkwardArguments.IsWrittenBy awkwardLine := by
    intro o
    cases o with
    | workspace | output => exact .inl rfl
    | packageManager => exact (by decide : ["bun".toList] = ["bun".toList])
    | _ => rfl
  obtain ⟨hread, htwice⟩ := (ofWords_in_any_order awkwardArguments).2 awkwardLine hline
  exact ⟨hline, hread, htwice (awkwardLine.take 2) (awkwardLine.drop 2) ⟨.verbose, []⟩
    ["-v".toList] rfl (by decide) (by decide) rfl .letter⟩

end InterfacePackage.Arguments
