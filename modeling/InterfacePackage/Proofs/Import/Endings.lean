import InterfacePackage.Proofs.Import.Fragment
import InterfacePackage.Proofs.Import.Table

/-!
# Line endings

A line that ends in a carriage return keeps it, and none is brought to the end of a line that has
none. An alias is trimmed, so that no carriage return goes with it, a fragment ends in a slash, and
what is cut off with the modules marker ends as the marker does. Main statement:
`relocateSource_keeps_endings`.
-/

namespace InterfacePackage.Import

/-- Whether a line ends in a carriage return. -/
def endsInReturn (line : Text) : Bool := line.getLast? = some '\r'

/-- The end of a line decides. -/
theorem endsInReturn_append (front : Text) {back : Text} (h : back ≠ []) :
    endsInReturn (front ++ back) = endsInReturn back := by
  obtain ⟨c, hc⟩ := Option.ne_none_iff_exists'.1 fun hnone => h (List.getLast?_eq_none_iff.1 hnone)
  rw [endsInReturn, endsInReturn, List.getLast?_append, hc, Option.some_or]

/-- A trimmed text does not end in a carriage return. -/
theorem endsInReturn_of_isTrimmed {t : Text} (h : t.IsTrimmed) : endsInReturn t = false := by
  refine decide_eq_false fun hlast => ?_
  have hblank := (Text.isTrimmed_iff.1 h).2 '\r' hlast
  exact absurd hblank (by decide)

/-- Neither does a fragment. -/
theorem endsInReturn_relativePrefix (file : Path) (destination anchor : Text) :
    endsInReturn (relativePrefix file destination anchor) = false := by
  rw [endsInReturn, getLast?_relativePrefix]
  decide

/-- A line that ends with the first occurrence of a pattern ends like the pattern. If the pattern is
empty, it occurs at the start, so the line is empty too. -/
theorem endsInReturn_of_cutAt {pattern line before : Text}
    (hcut : Text.cutAt pattern line = some (before, [])) (h : endsInReturn pattern = false) :
    endsInReturn line = false := by
  obtain ⟨hline, hfirst⟩ := Text.cutAt_eq_some_iff.1 hcut
  rw [List.append_nil] at hline
  by_cases hempty : pattern = []
  · subst hempty
    have hlength : before.length ≤ 0 := hfirst [] before (by simp)
    rw [hline, List.eq_nil_of_length_eq_zero (Nat.le_zero.1 hlength)]
    rfl
  · rw [hline, endsInReturn_append before hempty, h]

/-- Replacing a trimmed alias keeps the end of a line. -/
theorem endsInReturn_relocate (line : Text) (file : Path) {r : Remapping} (anchor : Text)
    (h : r.origin.IsTrimmed) : endsInReturn (relocate line file r anchor) = endsInReturn line := by
  cases hcut : Text.cutAt r.origin line with
  | none => rw [relocate, Text.replaceFirst, hcut]
  | some sides =>
    obtain ⟨before, after⟩ := sides
    have hrelocate : relocate line file r anchor
        = before ++ relativePrefix file r.destination anchor ++ after := by
      rw [relocate, Text.replaceFirst, hcut]
    rw [hrelocate]
    by_cases hafter : after = []
    · -- the alias ends the line, and the fragment does so in its place
      subst hafter
      have hprefix : relativePrefix file r.destination anchor ≠ [] := by
        intro hnil
        have hlast := getLast?_relativePrefix file r.destination anchor
        rw [hnil] at hlast
        cases hlast
      rw [List.append_nil, endsInReturn_append before hprefix, endsInReturn_relativePrefix,
        endsInReturn_of_cutAt hcut (endsInReturn_of_isTrimmed h)]
    · rw [Text.eq_of_cutAt hcut, endsInReturn_append _ hafter, endsInReturn_append _ hafter]

/-- The text up to a dot does not end in a carriage return. -/
theorem endsInReturn_uptoDot (line : Text) : endsInReturn (uptoDot line) = false := by
  unfold uptoDot
  split
  · rw [endsInReturn_append _ (by simp)]
    rfl
  · rfl

/-- Collapsing keeps the end of a line, even if the marker reaches it. -/
theorem endsInReturn_collapse (line : Text) {marker : Text} (h : endsInReturn marker = false) :
    endsInReturn (collapse line marker) = endsInReturn line := by
  cases hcut : Text.cutAt marker line with
  | none => rw [collapse, hcut]
  | some sides =>
    obtain ⟨before, after⟩ := sides
    have hcollapse : collapse line marker = uptoDot line ++ after := by rw [collapse, hcut]
    rw [hcollapse]
    by_cases hafter : after = []
    · subst hafter
      rw [List.append_nil, endsInReturn_uptoDot, endsInReturn_of_cutAt hcut h]
    · rw [endsInReturn_append _ hafter, Text.eq_of_cutAt hcut, endsInReturn_append _ hafter]

/-- A relocated line ends in a carriage return if the line does. -/
theorem endsInReturn_relocateLine (line : Text) (file : Path) {table : Table} {layout : Layout}
    (htable : ∀ r ∈ table, r.origin.IsTrimmed)
    (hmarker : endsInReturn layout.modulesMarker = false) :
    endsInReturn (relocateLine line file table layout) = endsInReturn line := by
  unfold relocateLine
  split
  · split
    · rename_i r hresolve
      rw [endsInReturn_collapse _ hmarker,
        endsInReturn_relocate line file _ (htable r (List.mem_of_find?_eq_some hresolve))]
    · rfl
  · rfl

/-- Line endings survive. A source that is relocated by a table read from a text has a carriage
return at the end of the same lines as before, unless the modules marker itself ends in one. -/
theorem relocateSource_keeps_endings (source text : Text) {file : Path} (hfile : '\n' ∉ file)
    {layout : Layout} (hmarker : layout.modulesMarker.getLast? ≠ some '\r') :
    (Text.split '\n' (relocateSource source file (.ofText text) layout).text).map endsInReturn
      = (Text.split '\n' source).map endsInReturn := by
  have hfeed : ∀ r ∈ Table.ofText text, '\n' ∉ r.destination :=
    fun _ hr => (Table.lineFeed_notMem_ofText hr).2
  have htrimmed : ∀ r ∈ Table.ofText text, r.origin.IsTrimmed :=
    fun r hr => (Table.isWritable_ofText text r hr).origin_trimmed
  rw [split_relocateSource hfile hfeed, List.map_map]
  exact List.map_congr_left fun line _ =>
    endsInReturn_relocateLine line file htrimmed (decide_eq_false hmarker)

/-- An alias and the marker at the end of a line, with and without a carriage return behind them,
and an empty origin. -/
theorem relocateSource_keeps_endings_mixed :
    (relocateSource
        "import '@a/A.sol';\r\nimport lib/\nimport lib/\r\n\r\nimport x" "solidity/I.sol"
        (.ofText "@a/ = solidity/ \r\nlib/=node_modules/\r\n = a\r.b") {}).text
      = "import './A.sol';\r\nimport .\nimport .\r\n\r\n../a\r.b/import x" ∧
    (Text.split '\n' (relocateSource
        "import '@a/A.sol';\r\nimport lib/\nimport lib/\r\n\r\nimport x" "solidity/I.sol"
        (.ofText "@a/ = solidity/ \r\nlib/=node_modules/\r\n = a\r.b") {}).text).map endsInReturn
      = [true, false, true, true, false] :=
  ⟨by decide +kernel,
    (relocateSource_keeps_endings _ _ (by decide) (by decide)).trans (by decide +kernel)⟩

end InterfacePackage.Import
