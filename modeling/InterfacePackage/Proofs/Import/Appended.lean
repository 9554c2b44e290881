import InterfacePackage.Proofs.Import.Shadowed

/-!
# Tables one after the other

A remapping text with another one behind a line feed has the rules of both, those of the first one
first, however the texts end and begin. The rules that come after are only asked about lines in
which no alias of the first table occurs. Main statement: `relocateLine_by_tables`.
-/

namespace InterfacePackage.Import

namespace Table

variable {front back : Table} {line : Text}

/-- The lines of a text with another one behind a line feed are those of both. -/
theorem lines_append (a b : Text) : lines (a ++ '\n' :: b) = lines a ++ lines b := by
  unfold lines
  rw [Text.split_append, List.map_append, List.filter_append]

/-- So are the rules. -/
theorem ofText_append (a b : Text) : ofText (a ++ '\n' :: b) = ofText a ++ ofText b := by
  unfold ofText
  rw [lines_append, List.map_append]

/-- No rule is found for a line exactly if no alias occurs in it. -/
theorem resolve_eq_none_iff : front.resolve line = none ↔ ∀ r ∈ front, ¬ r.origin <:+: line := by
  unfold resolve
  rw [List.find?_eq_none]
  simp only [Text.contains_iff]

/-- A line in which an alias of the first table occurs is decided by the first table. -/
theorem resolve_append_of_occurs (h : ∃ r ∈ front, r.origin <:+: line) (back : Table) :
    resolve (front ++ back) line = front.resolve line := by
  obtain ⟨r, hr, hoccurs⟩ := h
  have hfound : front.resolve line ≠ none := fun hnone => resolve_eq_none_iff.1 hnone r hr hoccurs
  rw [resolve_append, Option.or_of_isSome (Option.isSome_iff_ne_none.2 hfound)]

/-- Any other line is decided by the second one. -/
theorem resolve_append_of_free (h : ∀ r ∈ front, ¬ r.origin <:+: line) (back : Table) :
    resolve (front ++ back) line = back.resolve line := by
  rw [resolve_append, resolve_eq_none_iff.2 h, Option.none_or]

end Table

/-- Rules that are appended never change what earlier ones do. A remapping text with another one
behind a line feed gives the rules of both, and with them a line is relocated as by the first table
if it holds one of its aliases, and as by the second table otherwise. -/
theorem relocateLine_by_tables (a b : Text) :
    Table.ofText (a ++ '\n' :: b) = Table.ofText a ++ Table.ofText b ∧
      ∀ (line : Text) (file : Path) (layout : Layout),
        ((∃ r ∈ Table.ofText a, r.origin <:+: line) →
          relocateLine line file (.ofText (a ++ '\n' :: b)) layout
            = relocateLine line file (.ofText a) layout) ∧
        ((∀ r ∈ Table.ofText a, ¬ r.origin <:+: line) →
          relocateLine line file (.ofText (a ++ '\n' :: b)) layout
            = relocateLine line file (.ofText b) layout) := by
  have happend := Table.ofText_append a b
  refine ⟨happend, fun line file layout => ⟨fun hoccurs => ?_, fun hfree => ?_⟩⟩
  · rw [happend]
    apply relocateLine_of_resolve
    intro _
    exact Table.resolve_append_of_occurs hoccurs _
  · rw [happend]
    apply relocateLine_of_resolve
    intro _
    exact Table.resolve_append_of_free hfree _

/-- A text that ends in a carriage return and one that starts with a blank line. The first alias of
the second text is part of one of the first, and the rule of the first text is the one that counts
for the longer alias. -/
theorem relocateLine_by_tables_carriageReturn :
    Table.ofText "@x/sub/ = a/\r\n@y\r\n\n@x/=b/" = [⟨"@x/sub/", "a/"⟩, ⟨"@y", ""⟩, ⟨"@x/", "b/"⟩] ∧
      relocateLine "import '@x/sub/Y.sol';" "a/Z.sol"
          (.ofText "@x/sub/ = a/\r\n@y\r\n\n@x/=b/") ⟨"a", ""⟩
        = relocateLine "import '@x/sub/Y.sol';" "a/Z.sol"
          (.ofText "@x/sub/ = a/\r\n@y\r") ⟨"a", ""⟩ ∧
      relocateLine "import '@x/Y.sol';" "a/Z.sol"
          (.ofText "@x/sub/ = a/\r\n@y\r\n\n@x/=b/") ⟨"a", ""⟩
        = relocateLine "import '@x/Y.sol';" "a/Z.sol" (.ofText "\n@x/=b/") ⟨"a", ""⟩ := by
  have htables := relocateLine_by_tables "@x/sub/ = a/\r\n@y\r" "\n@x/=b/"
  refine ⟨by decide +kernel, ?_, ?_⟩
  · exact (htables.2 "import '@x/sub/Y.sol';" "a/Z.sol" ⟨"a", ""⟩).1
      ⟨⟨"@x/sub/", "a/"⟩, by decide +kernel, "import '", "Y.sol';", rfl⟩
  · refine (htables.2 "import '@x/Y.sol';" "a/Z.sol" ⟨"a", ""⟩).2 ?_
    have hnone : Table.resolve (.ofText "@x/sub/ = a/\r\n@y\r") "import '@x/Y.sol';" = none := by
      decide +kernel
    exact Table.resolve_eq_none_iff.1 hnone

end InterfacePackage.Import
