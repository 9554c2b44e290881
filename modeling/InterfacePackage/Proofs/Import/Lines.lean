import InterfacePackage.Proofs.Import.Settled

/-!
# Lines of relocated sources

No part of relocation brings a line feed: the rules of a table that is read from a text have none,
so neither a fragment nor what is left of a collapsed line has one. A relocated source therefore has
the lines of the source, each relocated on its own, and its counters tell how many there are and how
many of them differ. Main statement: `relocateSource_keeps_lines`.
-/

namespace InterfacePackage

namespace Text

/-! ## Trimmed texts -/

/-- Trimming a text brings no characters. -/
theorem mem_of_mem_trim {t : Text} {c : Char} (h : c ∈ t.trim) : c ∈ t := by
  rw [trim, trimEnd, List.mem_reverse] at h
  have hstart : c ∈ t.trimStart := List.mem_reverse.1 ((List.dropWhile_suffix _).subset h)
  exact (List.dropWhile_suffix _).subset hstart

/-- Replacing an occurrence of a pattern brings no characters but those of the replacement. -/
theorem mem_of_mem_replaceFirst {t pattern replacement : Text} {c : Char}
    (h : c ∈ t.replaceFirst pattern replacement) : c ∈ t ∨ c ∈ replacement := by
  unfold replaceFirst at h
  split at h
  · rename_i before after hcut
    rw [eq_of_cutAt hcut]
    simp only [List.mem_append] at h ⊢
    rcases h with (hbefore | hreplacement) | hafter
    · exact .inl (.inl (.inl hbefore))
    · exact .inr hreplacement
    · exact .inl (.inr hafter)
  · exact .inl h

end Text

namespace Import

/-! ## Characters -/

/-- The sides of a remapping are made of characters of its line. -/
theorem Remapping.mem_of_mem_ofLine {line : Text} {c : Char}
    (h : c ∈ (ofLine line).origin ∨ c ∈ (ofLine line).destination) : c ∈ line := by
  unfold ofLine at h
  split at h
  · rename_i origin destination hcut
    rw [Text.eq_of_cutAt hcut]
    rcases h with horigin | hdestination
    · exact List.mem_append_left _ (List.mem_append_left _ (Text.mem_of_mem_trim horigin))
    · exact List.mem_append_right _ (Text.mem_of_mem_trim hdestination)
  · exact h.resolve_right List.not_mem_nil

/-- A table read from a text has no line feed in either side of a rule. -/
theorem Table.lineFeed_notMem_ofText {text : Text} {r : Remapping} (h : r ∈ ofText text) :
    '\n' ∉ r.origin ∧ '\n' ∉ r.destination := by
  rw [ofText, List.mem_map] at h
  obtain ⟨line, hline, rfl⟩ := h
  have hmem : line ∈ (Text.split '\n' text).map Text.trim := (List.mem_filter.1 hline).1
  rw [List.mem_map] at hmem
  obtain ⟨piece, hpiece, rfl⟩ := hmem
  have hfree : '\n' ∉ piece.trim := fun hc =>
    Text.notMem_of_mem_split hpiece (Text.mem_of_mem_trim hc)
  exact ⟨fun hc => hfree (Remapping.mem_of_mem_ofLine (.inl hc)),
    fun hc => hfree (Remapping.mem_of_mem_ofLine (.inr hc))⟩

/-- A relocated line is made of dots, slashes, its own characters, and those of the file and of the
destinations of the table. -/
theorem mem_of_mem_relocateLine {line : Text} {file : Path} {table : Table} {layout : Layout}
    {c : Char} (h : c ∈ relocateLine line file table layout) :
    c ∈ line ∨ c = '.' ∨ c = '/' ∨ c ∈ file ∨ ∃ r ∈ table, c ∈ r.destination := by
  unfold relocateLine at h
  split at h
  · split at h
    · rename_i r hresolve
      -- collapsing takes away only, so the character was there when the alias had been replaced
      rcases Text.mem_of_mem_replaceFirst (mem_of_mem_collapse h) with hline | hfragment
      · exact .inl hline
      · rcases mem_of_mem_relativePrefix hfragment with hdot | hslash | hfile | hdestination
        · exact .inr (.inl hdot)
        · exact .inr (.inr (.inl hslash))
        · exact .inr (.inr (.inr (.inl hfile)))
        · exact .inr (.inr (.inr (.inr ⟨r, List.mem_of_find?_eq_some hresolve, hdestination⟩)))
    · exact .inl h
  · exact .inl h

/-- A relocated line is one line if the file and the destinations of the table have no line feed. -/
theorem lineFeed_notMem_relocateLine {line : Text} {file : Path} {table : Table} (layout : Layout)
    (hline : '\n' ∉ line) (hfile : '\n' ∉ file) (htable : ∀ r ∈ table, '\n' ∉ r.destination) :
    '\n' ∉ relocateLine line file table layout := by
  intro h
  rcases mem_of_mem_relocateLine h with hc | hc | hc | hc | ⟨r, hr, hc⟩
  · exact hline hc
  · exact absurd hc (by decide)
  · exact absurd hc (by decide)
  · exact hfile hc
  · exact htable r hr hc

/-- A line that is no import statement, or in which no origin occurs, is left alone. -/
theorem relocateLine_of_not_matched {line : Text} {table : Table} (file : Path) (layout : Layout)
    (h : isStatement line = false ∨ ∀ r ∈ table, Text.contains line r.origin = false) :
    relocateLine line file table layout = line := by
  unfold relocateLine
  rcases h with hstatement | hnone
  · rw [if_neg (by simp [hstatement])]
  · have hresolve : table.resolve line = none := by
      apply List.find?_eq_none.2
      intro r hr
      simp [hnone r hr]
    rw [hresolve]
    split <;> rfl

/-! ## Counters -/

/-- Pairs of neighbours in two lists that differ are counted by their positions. -/
theorem length_filter_zip {old new : List Text} (h : new.length = old.length) :
    ((old.zip new).filter fun (a, b) => b ≠ a).length
      = (List.range old.length).countP fun i => new[i]? ≠ old[i]? := by
  induction old generalizing new with
  | nil => rfl
  | cons a old ih =>
    cases new with
    | nil => cases h
    | cons b new =>
      have hrest := ih (Nat.succ.inj h)
      rw [← List.countP_eq_length_filter] at hrest ⊢
      rw [List.zip_cons_cons, List.countP_cons, hrest, List.length_cons, List.range_succ_eq_map,
        List.countP_cons, List.countP_map]
      -- the first pair stands at position zero, and all others one further on
      show _ = List.countP (fun i => decide (new[i]? ≠ old[i]?)) (List.range old.length)
        + if decide (some b ≠ some a) then 1 else 0
      simp only [ne_eq, Option.some.injEq]

/-- Nothing is counted exactly if both lists are the same. -/
theorem countP_eq_zero_iff {old new : List Text} (h : new.length = old.length) :
    (List.range old.length).countP (fun i => new[i]? ≠ old[i]?) = 0 ↔ new = old := by
  rw [List.countP_eq_zero]
  constructor
  · intro hsame
    apply List.ext_getElem? fun i => ?_
    by_cases hi : i < old.length
    · have := hsame i (List.mem_range.2 hi)
      simpa using this
    · rw [List.getElem?_eq_none (by omega), List.getElem?_eq_none (by omega)]
  · rintro rfl i -
    simp

/-! ## Sources -/

/-- A relocated source keeps the lines of the source: there are as many of them, each is the
relocated line, and the counters are right. -/
structure KeepsLines (source : Text) (file : Path) (table : Table) (layout : Layout)
    (result : Relocated) : Prop where
  before : (Text.split '\n' source).length = result.lineCount
  after : (Text.split '\n' result.text).length = result.lineCount
  relocated : ∀ i : Nat, (Text.split '\n' result.text)[i]?
    = (Text.split '\n' source)[i]?.map (relocateLine · file table layout)
  kept : ∀ (i : Nat) (line : Text), (Text.split '\n' source)[i]? = some line →
    (isStatement line = false ∨ ∀ r ∈ table, Text.contains line r.origin = false) →
    (Text.split '\n' result.text)[i]? = some line
  rewritten : result.rewrittenLines = (List.range result.lineCount).countP
    fun i => (Text.split '\n' result.text)[i]? ≠ (Text.split '\n' source)[i]?
  unchanged : result.rewrittenLines = 0 ↔ result.text = source

section

variable {file : Path} {table : Table} (hfile : '\n' ∉ file)
  (htable : ∀ r ∈ table, '\n' ∉ r.destination)

include hfile htable

/-- The lines of a relocated source are the relocated lines of the source. -/
theorem split_relocateSource (source : Text) (layout : Layout) :
    Text.split '\n' (relocateSource source file table layout).text
      = (Text.split '\n' source).map (relocateLine · file table layout) := by
  apply Text.split_join
  · simp [Text.split_ne_nil]
  · intro piece hpiece
    obtain ⟨line, hline, rfl⟩ := List.mem_map.1 hpiece
    exact lineFeed_notMem_relocateLine layout (Text.notMem_of_mem_split hline) hfile htable

/-- Relocation keeps the lines of a source. -/
theorem keepsLines_relocateSource (source : Text) (layout : Layout) :
    KeepsLines source file table layout (relocateSource source file table layout) := by
  have hsplit := split_relocateSource hfile htable source layout
  have hlength : (Text.split '\n' (relocateSource source file table layout).text).length
      = (Text.split '\n' source).length := by
    rw [hsplit, List.length_map]
  have hcount : (relocateSource source file table layout).rewrittenLines
      = (List.range (Text.split '\n' source).length).countP fun i =>
          (Text.split '\n' (relocateSource source file table layout).text)[i]?
            ≠ (Text.split '\n' source)[i]? := by
    rw [← length_filter_zip hlength, hsplit]
    rfl
  refine ⟨rfl, hlength, fun i => ?_, fun i line hline hleft => ?_, hcount, ?_⟩
  · rw [hsplit, List.getElem?_map]
  · rw [hsplit, List.getElem?_map, hline, Option.map_some,
      relocateLine_of_not_matched file layout hleft]
  · rw [hcount, countP_eq_zero_iff hlength]
    constructor
    · intro hsame
      rw [← Text.join_split '\n' (relocateSource source file table layout).text, hsame,
        Text.join_split]
    · intro hsame
      rw [hsame]

end

/-- Relocation by a table that is read from a text keeps the lines of every source, whatever the
anchor and the modules marker are. -/
theorem relocateSource_keeps_lines (source text : Text) {file : Path} (hfile : '\n' ∉ file)
    (layout : Layout) :
    KeepsLines source file (.ofText text) layout
      (relocateSource source file (.ofText text) layout) :=
  keepsLines_relocateSource hfile (fun _ hr => (Table.lineFeed_notMem_ofText hr).2) source layout

/-- An empty marker doubles the start of both import statements, and still no line comes or goes. -/
theorem relocateSource_keeps_lines_doubled :
    KeepsLines "import 'a/A.sol';\r\n\nimport 'b/B.sol';\n// a/" "solidity/I.sol"
        (.ofText "a/ = solidity/\r\nb/") ⟨"", ""⟩
        (relocateSource "import 'a/A.sol';\r\n\nimport 'b/B.sol';\n// a/" "solidity/I.sol"
          (.ofText "a/ = solidity/\r\nb/") ⟨"", ""⟩)
      ∧ (relocateSource "import 'a/A.sol';\r\n\nimport 'b/B.sol';\n// a/" "solidity/I.sol"
          (.ofText "a/ = solidity/\r\nb/") ⟨"", ""⟩).rewrittenLines = 2 :=
  ⟨relocateSource_keeps_lines _ _ (by decide) _, by decide +kernel⟩

end Import

end InterfacePackage
