import InterfacePackage.Proofs.Text.Pieces
import InterfacePackage.Settings.Arguments
import Mathlib.Data.List.Forall2

/-!
# The scan of a command line

A command line is a list of options, each with its value if it takes one. The scan of its words
follows a much simpler machine, which adds one option after the other to the line and stops at the
first one that is there already and may not be repeated. Main statement: `ofWords_flatten`.
-/

namespace InterfacePackage

/-! ## Lines -/

/-- An option on a command line, with its value if it takes one. -/
structure Occurrence where
  option : Switch
  value : Text := []
deriving DecidableEq, Repr

/-- A value that is right for an option. A package manager may be named in any mixture of cases. -/
def Switch.Admits : Switch → Text → Prop
  | .packageManager, v => ∃ manager : PackageManager, v.map Char.toLower = manager.name
  | .output, v => v = "human".toList ∨ v = "json".toList
  | .skipCodegen, v | .skipInstall, v | .verbose, v => v = []
  | _, _ => True

/-- Only targets may be repeated. -/
theorem Switch.repeats_of_ne {o : Switch} (h : o ≠ .target) : o.repeats = false := by
  cases o with
  | target => exact absurd rfl h
  | _ => rfl

/-- There is no value for an option that takes none. -/
theorem Switch.Admits.eq_nil {o : Switch} {v : Text} (h : o.Admits v)
    (htakes : o.takesValue = false) : v = [] := by
  cases o with
  | skipCodegen | skipInstall | verbose => exact h
  | _ => cases htakes

namespace Occurrence

/-- An option written as one word, the value attached. -/
def word (x : Occurrence) : Text :=
  '-' :: '-' :: if x.option.takesValue then x.option.name ++ '=' :: x.value else x.option.name

/-- The words an option may be written in: one word, or two if the value does not look like an
option, or the short form. -/
inductive Spells : Occurrence → List Text → Prop
  | attached (x : Occurrence) : Spells x [x.word]
  | apart {o : Switch} {v : Text} (h : o.takesValue = true)
      (hv : v = ['-'] ∨ v.head? ≠ some '-') : Spells ⟨o, v⟩ ['-' :: '-' :: o.name, v]
  | letter : Spells ⟨.verbose, []⟩ ["-v".toList]

/-- Each option of a line may have its value attached. -/
theorem spells_map (line : List Occurrence) :
    List.Forall₂ Spells line (line.map fun x => [x.word]) := by
  rw [List.forall₂_map_right_iff, List.forall₂_same]
  exact fun x _ => .attached x

theorem flatten_map_word (line : List Occurrence) :
    (line.map fun x => [x.word]).flatten = line.map word := by
  rw [← List.flatMap_def, ← List.map_eq_flatMap]

/-- The values of an option on a line, in order. -/
def values (o : Switch) (line : List Occurrence) : List Text :=
  (line.filter (·.option = o)).map (·.value)

variable {o : Switch} {line : List Occurrence} {x : Occurrence}

theorem values_append (o : Switch) (front back : List Occurrence) :
    values o (front ++ back) = values o front ++ values o back := by
  rw [values, List.filter_append, List.map_append, values, values]

@[simp] theorem values_cons_self (x : Occurrence) (line : List Occurrence) :
    values x.option (x :: line) = x.value :: values x.option line := by
  rw [values, List.filter_cons_of_pos (by simp), List.map_cons, values]

theorem values_cons_of_ne (h : x.option ≠ o) (line : List Occurrence) :
    values o (x :: line) = values o line := by
  rw [values, List.filter_cons_of_neg (by simp [h]), values]

/-- The values of an option on a line with one more option at its end. -/
theorem values_concat (o : Switch) (line : List Occurrence) (x : Occurrence) :
    values o (line ++ [x]) = values o line ++ if x.option = o then [x.value] else [] := by
  rw [values_append]
  split
  · rename_i h
    rw [← h, values_cons_self]
    rfl
  · rename_i h
    rw [values_cons_of_ne h]
    rfl

theorem mem_values (h : x ∈ line) : x.value ∈ values x.option line :=
  List.mem_map_of_mem (List.mem_filter.2 ⟨h, by simp⟩)

/-- No option that may not be repeated comes twice. -/
def Once (line : List Occurrence) : Prop :=
  ∀ o : Switch, o.repeats = false → (values o line).length ≤ 1

/-- An option put on a line that has it comes twice. -/
theorem not_once_of_mem {front back : List Occurrence} (hrepeats : x.option.repeats = false)
    (h : ∃ y ∈ front ++ back, y.option = x.option) : ¬ Once (front ++ x :: back) := by
  intro honce
  obtain ⟨y, hy, hyx⟩ := h
  have hlength := honce x.option hrepeats
  have hvalue : y.value ∈ values x.option (front ++ back) := hyx ▸ mem_values hy
  have hpos := List.length_pos_of_mem hvalue
  rw [values_append, List.length_append] at hpos
  rw [values_append, values_cons_self, List.length_append, List.length_cons] at hlength
  omega

/-- One more option on a line. -/
def add (line : List Occurrence) (x : Occurrence) : Except UsageFault (List Occurrence) :=
  if values x.option line ≠ [] ∧ x.option.repeats = false then .error .argumentConflict
  else .ok (line ++ [x])

/-- An option that is not repeated is added. -/
theorem add_of_once {rest : List Occurrence} (h : Once (line ++ x :: rest)) :
    add line x = .ok (line ++ [x]) := by
  refine if_neg fun ⟨hthere, hrepeats⟩ => ?_
  have hlength := h x.option hrepeats
  have hpos := List.length_pos_iff.2 hthere
  rw [values_append, values_cons_self, List.length_append, List.length_cons] at hlength
  omega

/-- An option that is not there yet, or may be repeated, is no second one. -/
theorem Once.concat (h : Once line)
    (hx : ¬ (values x.option line ≠ [] ∧ x.option.repeats = false)) : Once (line ++ [x]) := by
  intro o ho
  rw [values_concat]
  split
  · rename_i hoption
    subst hoption
    have hnone : values x.option line = [] := by
      cases hvalues : values x.option line with
      | nil => rfl
      | cons v vs => exact absurd ⟨by simp [hvalues], ho⟩ hx
    rw [hnone]
    exact Nat.le_refl 1
  · rw [List.append_nil]
    exact h o ho

/-- Options are added one after the other. -/
theorem foldlM_add_of_once {done : List Occurrence} (h : Once (done ++ line)) :
    line.foldlM add done = .ok (done ++ line) := by
  induction line generalizing done with
  | nil =>
    rw [List.append_nil]
    rfl
  | cons x line ih =>
    have happend : done ++ x :: line = done ++ [x] ++ line := by simp
    rw [List.foldlM_cons, add_of_once h]
    rw [happend] at h ⊢
    exact ih h

/-- One of them is refused if an option comes twice. -/
theorem foldlM_add_of_not_once {done : List Occurrence} (hdone : Once done)
    (h : ¬ Once (done ++ line)) : line.foldlM add done = .error .argumentConflict := by
  induction line generalizing done with
  | nil =>
    rw [List.append_nil] at h
    exact absurd hdone h
  | cons x line ih =>
    have happend : done ++ x :: line = done ++ [x] ++ line := by simp
    rw [List.foldlM_cons, add]
    by_cases hthere : values x.option done ≠ [] ∧ x.option.repeats = false
    · rw [if_pos hthere]
      rfl
    · rw [if_neg hthere]
      rw [happend] at h
      exact ih (hdone.concat hthere) h

end Occurrence

open Occurrence (values values_concat)

/-! ## What a line asks for -/

namespace Arguments

variable {a : Arguments} {o : Switch} {line : List Occurrence} {x : Occurrence}

/-- What a line asks for, option by option. -/
def collect (line : List Occurrence) : Arguments where
  workspace := (values .workspace line).getLast?.getD ".".toList
  config := (values .config line).getLast?
  anchor := (values .anchor line).getLast?
  exportDir := (values .exportDir line).getLast?
  targets := values .target line
  packageManager := (values .packageManager line).getLast?.bind PackageManager.ofName?
  skipCodegen := values .skipCodegen line ≠ []
  skipInstall := values .skipInstall line ≠ []
  output := if (values .output line).getLast? = some "json".toList then .json else .human
  verbose := values .verbose line ≠ []

/-- A name in any mixture of cases is that of its package manager. -/
theorem ofName?_of_lower {v : Text} {manager : PackageManager}
    (h : v.map Char.toLower = manager.name) : PackageManager.ofName? v = some manager := by
  rw [PackageManager.ofName?, h]
  cases manager <;> decide

/-- One more option sets what the longer line asks for. -/
theorem set_collect (h : x.option.Admits x.value) (line : List Occurrence) :
    (collect line).set x.option x.value = .ok (collect (line ++ [x])) := by
  obtain ⟨o, v⟩ := x
  cases o with
  | packageManager =>
    obtain ⟨manager, hname⟩ := h
    have hmanager := ofName?_of_lower hname
    simp only at hmanager
    simp [set, collect, values_concat, hmanager]
  | output =>
    rcases h with rfl | rfl
    · simp [set, collect, values_concat]
    · simp [set, collect, values_concat]
  | _ => simp [set, collect, values_concat]

/-! ## The scan of a line -/

namespace Scan

open Occurrence (add Spells)

variable {s : Scan}

/-- The scan of a line, all of whose options are settled. -/
def after (line : List Occurrence) : Scan where
  arguments := collect line
  given := (line.map (·.option)).reverse

/-- Such a scan takes an option as it is added to the line. What is pending does not count. -/
theorem take_after (h : x.option.Admits x.value) (line : List Occurrence)
    (pending : Option (Switch × Option Text)) :
    ({ after line with pending } : Scan).take x.option x.value = (add line x).map after := by
  have hset : (({ after line with pending } : Scan).arguments.set x.option x.value)
      = .ok (collect (line ++ [x])) := set_collect h line
  have hgiven :
      (({ after line with pending } : Scan).given.contains x.option && !x.option.repeats) = true
      ↔ values x.option line ≠ [] ∧ x.option.repeats = false := by
    simp [after, values, List.filter_eq_nil_iff]
  rw [take, add]
  by_cases htwice : values x.option line ≠ [] ∧ x.option.repeats = false
  · rw [if_pos htwice, if_pos (hgiven.2 htwice)]
    rfl
  · rw [if_neg htwice, if_neg fun h => htwice (hgiven.1 h), hset]
    simp [after, bind, Except.bind, pure, Except.pure, Except.map]

/-- A word after two dashes is cut at its first `=`. -/
theorem word_dashes (hclosed : s.closed = false) {body : Text} (hbody : body ≠ []) :
    s.word ('-' :: '-' :: body) = match Text.cutAt ['='] body with
      | some (name, v) => s.long name (some v)
      | none => s.long body none := by
  cases body with
  | nil => exact absurd rfl hbody
  | cons c rest =>
    unfold word
    rw [hclosed, if_neg Bool.false_ne_true]
    rfl

/-- An option with its value attached is taken once the option before it is settled. -/
theorem word_attached (hclosed : s.closed = false) (h : x.option.Admits x.value) :
    s.word x.word = s.settle >>= fun s => s.take x.option x.value := by
  have hname : x.option.name ≠ [] := by cases x.option <;> decide
  have hequals : '=' ∉ x.option.name := by cases x.option <;> decide
  have hknown : Switch.ofName? x.option.name = some x.option := by cases x.option <;> rfl
  rw [Occurrence.word, word_dashes hclosed (by split <;> simp [hname])]
  cases htakes : x.option.takesValue with
  | true =>
    have hcut : Text.cutAt ['='] (x.option.name ++ '=' :: x.value)
        = some (x.option.name, x.value) := Text.cutAt_singleton_eq_some_iff.2 ⟨rfl, hequals⟩
    rw [if_pos rfl, hcut]
    simp only [long, hknown, htakes]
  | false =>
    have hcut : Text.cutAt ['='] x.option.name = none := by
      refine Option.eq_none_iff_forall_ne_some.2 fun sides hsides => hequals ?_
      rw [(Text.cutAt_singleton_eq_some_iff.1 hsides).1]
      simp
    rw [if_neg Bool.false_ne_true, hcut, h.eq_nil htakes]
    simp only [long, hknown, htakes]

/-- The name of an option that takes a value leaves the option pending. -/
theorem word_name {o : Switch} (hclosed : s.closed = false) (htakes : o.takesValue = true) :
    s.word ('-' :: '-' :: o.name)
      = s.settle >>= fun s => .ok { s with pending := some (o, none) } := by
  cases o with
  | skipCodegen | skipInstall | verbose => cases htakes
  | _ =>
    rw [word_dashes hclosed (by decide)]
    rfl

/-- A word that does not look like an option is the value of the pending one. -/
theorem word_value {o : Switch} {v : Text} (hclosed : s.closed = false)
    (hpending : s.pending = some (o, none)) (hv : v = ['-'] ∨ v.head? ≠ some '-') :
    s.word v = .ok { s with pending := some (o, some v) } := by
  have hvalue : s.word v = s.value v := by
    unfold word
    rw [hclosed, if_neg Bool.false_ne_true]
    rcases hv with rfl | hv
    · rfl
    · split
      · exact absurd rfl hv
      · exact absurd rfl hv
      · exact absurd rfl hv
      · rfl
  rw [hvalue, value, hpending]

/-- The short form of an option that takes no value. -/
theorem word_letter (hclosed : s.closed = false) :
    s.word "-v".toList = s.settle >>= fun s => s.take .verbose [] := by
  have hshort : s.word "-v".toList = s.short ['v'] := by
    show s.word ['-', 'v'] = _
    unfold word
    rw [hclosed, if_neg Bool.false_ne_true]
    rfl
  rw [hshort]
  simp only [short]
  cases s.settle with
  | error e => rfl
  | ok s =>
    show (s.take .verbose [] >>= fun s => .ok s) = s.take .verbose []
    cases s.take .verbose [] <;> rfl

/-- The outcome of scanning words stands for a line: once the option read last is settled, the scan
is that of the line, or it stops where the line does. -/
structure Follows (result : Except UsageFault Scan) (line : Except UsageFault (List Occurrence)) :
    Prop where
  settled : result >>= settle = line.map after
  opened : ∀ s, result = .ok s → s.closed = false

/-- A scan that has stopped stands for a line that has. -/
theorem follows_error (e : UsageFault) : Follows (.error e) (.error e) where
  settled := rfl
  opened _ h := by simp at h

/-- The scan of a line stands for the line. -/
theorem follows_map (line : Except UsageFault (List Occurrence)) :
    Follows (line.map after) line := by
  cases line with
  | error e => exact follows_error e
  | ok l =>
    have hopened : ∀ s, Except.ok (after l) = (.ok s : Except UsageFault Scan) → s.closed = false :=
      fun s h => Except.ok.inj h ▸ rfl
    exact ⟨rfl, hopened⟩

/-- The words of one more option add it to the line, however they spell it. -/
theorem Follows.foldlM_word {line : Except UsageFault (List Occurrence)} {words : List Text}
    (h : Follows (.ok s) line) (hx : x.option.Admits x.value) (hspells : Spells x words) :
    Follows (words.foldlM word s) (line >>= fun l => add l x) := by
  have hclosed := h.opened s rfl
  have hsettled : s.settle = line.map after := h.settled
  -- an option that is taken at once
  have htake : Follows (s.settle >>= fun s => s.take x.option x.value)
      (line >>= fun l => add l x) := by
    rw [hsettled]
    cases line with
    | error e => exact follows_error e
    | ok l =>
      have hadd : (after l).take x.option x.value = (add l x).map after := take_after hx l none
      show Follows ((after l).take x.option x.value) (add l x)
      rw [hadd]
      exact follows_map _
  cases hspells with
  | attached =>
    rw [List.foldlM_cons, word_attached hclosed hx]
    simpa only [List.foldlM_nil, bind_pure] using htake
  | letter =>
    rw [List.foldlM_cons, word_letter hclosed]
    simpa only [List.foldlM_nil, bind_pure] using htake
  | @apart o v htakes hv =>
    cases line with
    | error e =>
      rw [List.foldlM_cons, word_name hclosed htakes, hsettled]
      exact follows_error e
    | ok l =>
      have hname : s.word ('-' :: '-' :: o.name)
          = .ok { after l with pending := some (o, none) } := by
        rw [word_name hclosed htakes, hsettled]
        rfl
      have hvalue : ({ after l with pending := some (o, none) } : Scan).word v
          = .ok { after l with pending := some (o, some v) } := word_value rfl rfl hv
      have hboth : ['-' :: '-' :: o.name, v].foldlM word s
          = .ok { after l with pending := some (o, some v) } := by
        simp only [List.foldlM_cons, List.foldlM_nil, hname, hvalue, bind, Except.bind, pure,
          Except.pure]
      -- the option is taken when it is settled
      rw [hboth]
      exact ⟨take_after hx l (some (o, some v)), fun s h => Except.ok.inj h ▸ rfl⟩

/-- The scan of options, in whatever words, follows the line they are added to. -/
theorem follows_foldlM {wordings : List (List Text)} (h : List.Forall₂ Spells line wordings)
    (hline : ∀ x ∈ line, x.option.Admits x.value) :
    Follows (wordings.flatten.foldlM word {}) (line.foldlM add []) := by
  -- the options may be added to any line that the words before them stand for
  suffices hfrom : ∀ result done, Follows result done →
      Follows (result >>= fun s => wordings.flatten.foldlM word s)
        (done >>= fun l => line.foldlM add l) from hfrom (.ok {}) (.ok []) (follows_map (.ok []))
  induction h with
  | nil =>
    intro result done hdone
    simpa only [List.flatten_nil, List.foldlM_nil, bind_pure] using hdone
  | @cons x words line wordings hspells hrest ih =>
    intro result done hdone
    have hmore : Follows (result >>= fun s => words.foldlM word s) (done >>= fun l => add l x) := by
      cases result with
      | error e =>
        have hdone : Except.error e = done.map after := hdone.settled
        cases done with
        | error e' =>
          have he : e = e' := Except.error.inj hdone
          rw [he]
          exact follows_error e'
        | ok l => exact absurd hdone (by simp [Except.map])
      | ok s => exact hdone.foldlM_word (hline x List.mem_cons_self) hspells
    have hleft := ih (fun y hy => hline y (List.mem_cons_of_mem _ hy)) _ _ hmore
    simpa only [List.flatten_cons, List.foldlM_append, List.foldlM_cons, bind_assoc] using hleft

end Scan

/-- A command line is read as the options on it are added, in whatever words they come. -/
theorem ofWords_flatten {wordings : List (List Text)}
    (h : List.Forall₂ Occurrence.Spells line wordings)
    (hline : ∀ x ∈ line, x.option.Admits x.value) :
    ofWords wordings.flatten = (line.foldlM Occurrence.add []).map collect := by
  have hfollows := (Scan.follows_foldlM h hline).settled
  have hread : ofWords wordings.flatten
      = ((wordings.flatten.foldlM Scan.word {} >>= Scan.settle).map (·.arguments)) := by
    rw [ofWords]
    cases wordings.flatten.foldlM Scan.word {} with
    | error e => rfl
    | ok s =>
      show (s.settle >>= fun s => .ok s.arguments) = s.settle.map (·.arguments)
      cases s.settle <;> rfl
  rw [hread, hfollows]
  cases line.foldlM Occurrence.add [] <;> rfl

end Arguments

end InterfacePackage
