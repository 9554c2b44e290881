import InterfacePackage.Package.Summary
import InterfacePackage.Proofs.Json.Layout
import InterfacePackage.Proofs.Settings.Fields

/-!
# Summaries read back

The text of a summary for programs is a JSON document, and from the value in it the summary can be
put together again: names and paths whatever characters they have, counts whatever their number of
digits, and lists of any length. Main statements: `isGrammatical_ofNat`, `ofJson?_toJson` and
`format_json_decodes`.
-/

namespace InterfacePackage

namespace Json

/-! ## Natural numbers -/

namespace Numeral

/-- Only zero is written with a zero in front. -/
theorem eq_zero_of_head?_toDigits {n : Nat} (h : (Nat.toDigits 10 n).head? = some '0') : n = 0 := by
  -- on the number, of which all digits but the last are those of its tenth part
  induction n using Nat.strongRecOn with
  | ind n ih =>
    by_cases hn : n < 10
    · have hdigit : ∀ k < 10, k.digitChar = '0' → k = 0 := by decide
      rw [Nat.toDigits_of_lt_base hn] at h
      exact hdigit n hn (Option.some.inj h)
    · rw [Nat.toDigits_of_base_le (by decide) (by omega),
        List.head?_append_of_ne_nil _ Nat.toDigits_ne_nil] at h
      have htenth := ih (n / 10) (by omega) h
      omega

/-- A natural number is written in the form of the grammar. -/
theorem isGrammatical_ofNat (n : Nat) : (ofNat n).IsGrammatical where
  whole := ⟨Nat.toDigits_ne_nil, fun _ hc => Nat.isDigit_of_mem_toDigits (by decide) (by decide) hc⟩
  zero h := by
    obtain rfl := eq_zero_of_head?_toDigits h
    rfl
  fraction := nofun
  exponent := nofun

/-- It is the value of what is written for it. -/
theorem toNat?_ofNat (n : Nat) : (ofNat n).toNat? = some n :=
  congrArg some Nat.ofDigitChars_ten_toDigits

end Numeral

/-! ## Members -/

/-- A truth value. -/
def boolean? : Json → Option Bool
  | boolean b => some b
  | _ => none

/-- A natural number. -/
def nat? : Json → Option Nat
  | number n => n.toNat?
  | _ => none

/-- The items of a list, each of the same kind. -/
def listOf? {α : Type} (item? : Json → Option α) (x : Json) : Option (List α) :=
  x.items?.bind (·.mapM item?)

/-- The value of a member, by its kind. -/
def member? {α : Type} (x : Json) (key : Text) (value? : Json → Option α) : Option α :=
  (x.get? key).bind value?

/-- Items made from values are these values, if each of them is. -/
theorem listOf?_map {α : Type} {item? : Json → Option α} {toJson : α → Json}
    (h : ∀ a, item? (toJson a) = some a) (as : List α) :
    listOf? item? (.list (as.map toJson)) = some as := by
  show (as.map toJson).mapM item? = some as
  induction as with
  | nil => rfl
  | cons a as ih =>
    rw [List.map_cons, List.mapM_cons, h, ih]
    rfl

/-- Strings made from texts are these texts. -/
theorem texts?_map (ts : List Text) : texts? (.list (ts.map .string)) = some ts :=
  @listOf?_map Text string? .string (fun _ => rfl) ts

end Json

open Json

namespace ExportedInterface

/-- The interface that a value tells of. -/
def ofJson? (x : Json) : Option ExportedInterface := do
  return {
    name := ← x.member? "name" string?
    source := ← x.member? "source" string?
    contract := ← x.member? "contract" string?
    abi := ← x.member? "abi" string?
    rewrittenImports := ← x.member? "rewritten_imports" nat? }

/-- It is the one that the value was made from. -/
theorem ofJson?_toJson (i : ExportedInterface) : ofJson? i.toJson = some i := by
  have hcount : i.toJson.member? "rewritten_imports" nat? = some i.rewrittenImports :=
    Numeral.toNat?_ofNat i.rewrittenImports
  unfold ofJson?
  rw [hcount]
  rfl

/-- An interface can be written. -/
theorem isWritable_toJson (i : ExportedInterface) : IsWritable i.toJson := by
  refine .object fun kx hkx => ?_
  simp only [List.mem_cons, List.not_mem_nil, or_false] at hkx
  rcases hkx with rfl | rfl | rfl | rfl | rfl
  · exact .string i.name
  · exact .string i.source
  · exact .string i.contract
  · exact .string i.abi
  · exact .number (Numeral.isGrammatical_ofNat i.rewrittenImports)

end ExportedInterface

namespace Summary

/-- The summary that a value holds. -/
def ofJson? (x : Json) : Option Summary := do
  return {
    exportDir := ← x.member? "export_dir" string?
    interfaces := ← x.member? "interfaces" (listOf? ExportedInterface.ofJson?)
    generatedTargets := ← x.member? "generated_targets" texts?
    dependenciesInstalled := ← x.member? "dependencies_installed" boolean? }

/-- It is the one that the value was made from. -/
theorem ofJson?_toJson (s : Summary) : ofJson? s.toJson = some s := by
  have hinterfaces : s.toJson.member? "interfaces" (listOf? ExportedInterface.ofJson?)
      = some s.interfaces := listOf?_map ExportedInterface.ofJson?_toJson s.interfaces
  have htargets : s.toJson.member? "generated_targets" texts? = some s.generatedTargets :=
    texts?_map s.generatedTargets
  unfold ofJson?
  rw [hinterfaces, htargets]
  rfl

/-- A summary can be written. -/
theorem isWritable_toJson (s : Summary) : IsWritable s.toJson := by
  refine .object fun kx hkx => ?_
  simp only [List.mem_cons, List.not_mem_nil, or_false] at hkx
  rcases hkx with rfl | rfl | rfl | rfl
  · exact .string s.exportDir
  · refine .list fun x hx => ?_
    obtain ⟨i, -, rfl⟩ := List.mem_map.1 hx
    exact i.isWritable_toJson
  · refine .list fun x hx => ?_
    obtain ⟨target, -, rfl⟩ := List.mem_map.1 hx
    exact .string target
  · exact .boolean s.dependenciesInstalled

/-- The text of a summary for programs is a JSON document of one value only, which is what parsing
it gives, and that value holds the summary: its export directory, its interfaces in order with all
their fields, its targets in order, and whether dependencies were installed. So only the same
summary has the same text. -/
theorem format_json_decodes (s : Summary) :
    ∃ x, (∀ y, IsDocument (s.format .json) y ↔ y = x) ∧ parse (s.format .json) = .ok x ∧
      ofJson? x = some s ∧ ∀ other : Summary, other.format .json = s.format .json ↔ other = s := by
  have hdocument : ∀ s : Summary, IsDocument (s.format .json) s.toJson :=
    fun s => isDocument_document s.isWritable_toJson 2
  have hparse : ∀ s : Summary, parse (s.format .json) = .ok s.toJson :=
    fun s => parse_of_isDocument (hdocument s)
  refine ⟨s.toJson, fun y => ⟨fun hy => ?_, fun hy => hy ▸ hdocument s⟩, hparse s, s.ofJson?_toJson,
    fun other => ⟨fun hsame => ?_, fun hother => hother ▸ rfl⟩⟩
  · exact Except.ok.inj ((parse_of_isDocument hy).symm.trans (hparse s))
  · -- the same text is parsed as one value, which holds both summaries
    have hvalue : other.toJson = s.toJson :=
      Except.ok.inj ((hparse other).symm.trans (hsame ▸ hparse s))
    have hother := other.ofJson?_toJson
    rw [hvalue, s.ofJson?_toJson] at hother
    exact (Option.some.inj hother).symm

end Summary

end InterfacePackage
