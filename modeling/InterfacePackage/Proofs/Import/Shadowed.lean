import InterfacePackage.Import.Source
import InterfacePackage.Proofs.Text.Pieces

/-!
# Shadowed remappings

The first rule whose alias occurs in a line decides, so a rule whose alias holds that of an earlier
one is never reached: every line that holds the longer alias holds the shorter one as well. Such a
rule may be left out of a table, and nothing that is relocated shows it. Main statement:
`relocateSource_drops_shadowed`.
-/

namespace InterfacePackage.Import

variable {front back : Table} {r : Remapping}

namespace Table

/-- The alias of some rule of the table is part of the alias of another rule. -/
def Shadows (table : Table) (r : Remapping) : Prop := ∃ o ∈ table, o.origin <:+: r.origin

/-- A table that has a shadowing rule among others shadows as well. -/
theorem Shadows.append (h : front.Shadows r) (back : Table) : Shadows (front ++ back) r := by
  obtain ⟨o, ho, hpart⟩ := h
  exact ⟨o, List.mem_append_left back ho, hpart⟩

/-- A rule without an alias shadows every rule. -/
theorem shadows_of_origin_nil {o : Remapping} (ho : o ∈ front) (hnil : o.origin = [])
    (r : Remapping) : front.Shadows r := by
  refine ⟨o, ho, ?_⟩
  rw [hnil]
  exact List.nil_infix

/-- A line that holds the alias of a shadowed rule is decided by the rules before it. -/
theorem Shadows.resolve_ne_none (h : front.Shadows r) {line : Text}
    (hline : Text.contains line r.origin = true) : front.resolve line ≠ none := by
  obtain ⟨o, ho, hpart⟩ := h
  have hearlier : Text.contains line o.origin = true :=
    Text.contains_iff.2 (hpart.trans (Text.contains_iff.1 hline))
  intro hnone
  have hnot := List.find?_eq_none.1 hnone o ho
  exact hnot hearlier

/-- The rules of the first of two tables come before those of the second. -/
theorem resolve_append (front back : Table) (line : Text) :
    resolve (front ++ back) line = (front.resolve line).or (back.resolve line) :=
  List.find?_append

/-- A shadowed rule behind those that shadow it is never found. -/
theorem resolve_concat_of_shadows (h : front.Shadows r) (line : Text) :
    resolve (front ++ [r]) line = front.resolve line := by
  rw [resolve_append]
  cases hfront : front.resolve line with
  | some o => rfl
  | none =>
    -- nothing before it was found, so the line does not hold its alias either
    rw [Option.none_or]
    refine List.find?_eq_none.2 fun o ho hline => ?_
    rw [List.mem_singleton.1 ho] at hline
    exact h.resolve_ne_none hline hfront

/-- A shadowed rule has no part in what is found, whatever comes after it. -/
theorem resolve_of_shadows (h : front.Shadows r) (back : Table) (line : Text) :
    resolve (front ++ [r] ++ back) line = resolve (front ++ back) line := by
  rw [resolve_append, resolve_concat_of_shadows h, ← resolve_append]

/-- Rules that are all shadowed have no part in what is found. -/
theorem resolve_of_forall_shadows (h : ∀ r ∈ back, front.Shadows r) (line : Text) :
    resolve (front ++ back) line = front.resolve line := by
  -- one rule after another is moved to those that shadow the rest, where it is not found
  induction back generalizing front with
  | nil => rw [List.append_nil]
  | cons r back ih =>
    rw [List.forall_mem_cons] at h
    have hrest : ∀ o ∈ back, Shadows (front ++ [r]) o := fun o ho => (h.2 o ho).append [r]
    calc resolve (front ++ r :: back) line
        = resolve (front ++ [r] ++ back) line := by rw [List.append_assoc, List.singleton_append]
      _ = resolve (front ++ [r]) line := ih hrest
      _ = front.resolve line := resolve_concat_of_shadows h.1 line

end Table

/-- Relocation knows a table only through the rule it finds for an import statement. -/
theorem relocateLine_of_resolve {table table' : Table} {line : Text}
    (h : isStatement line = true → table.resolve line = table'.resolve line) (file : Path)
    (layout : Layout) :
    relocateLine line file table layout = relocateLine line file table' layout := by
  rw [relocateLine, relocateLine]
  by_cases hstatement : isStatement line = true
  · rw [if_pos hstatement, if_pos hstatement, h hstatement]
  · rw [if_neg hstatement, if_neg hstatement]

/-- So tables that find the same rules relocate every source alike. -/
theorem relocateSource_of_resolve {table table' : Table}
    (h : ∀ line, isStatement line = true → table.resolve line = table'.resolve line) (source : Text)
    (file : Path) (layout : Layout) :
    relocateSource source file table layout = relocateSource source file table' layout := by
  have hline : ∀ line, relocateLine line file table layout = relocateLine line file table' layout :=
    fun line => relocateLine_of_resolve (h line) file layout
  rw [relocateSource, relocateSource]
  simp only [hline]

/-- Shadowed rules are dead. A rule whose alias holds that of an earlier one may be left out: every
source is relocated to the same text with the same counters. Behind a rule without an alias all
rules may be left out. -/
theorem relocateSource_drops_shadowed (front back : Table) (r : Remapping) (source : Text)
    (file : Path) (layout : Layout) :
    (front.Shadows r → relocateSource source file (front ++ [r] ++ back) layout
        = relocateSource source file (front ++ back) layout) ∧
      (r.origin = [] → relocateSource source file (front ++ [r] ++ back) layout
        = relocateSource source file (front ++ [r]) layout) := by
  constructor
  · intro hshadows
    exact relocateSource_of_resolve (fun line _ => Table.resolve_of_shadows hshadows back line)
      source file layout
  · intro hnil
    have hall : ∀ o ∈ back, Table.Shadows (front ++ [r]) o := fun o _ =>
      Table.shadows_of_origin_nil (List.mem_append_right front (List.mem_singleton_self r)) hnil o
    exact relocateSource_of_resolve (fun line _ => Table.resolve_of_forall_shadows hall line)
      source file layout

/-- A narrow rule behind a wide one, a rule without an alias, and a last one. -/
def layeredTable : Table := [⟨"@x/", "a/"⟩, ⟨"@x/sub", "b/"⟩, ⟨"", "c/"⟩, ⟨"lib/", "d/"⟩]

/-- Of four rules only the wide one and the one without an alias ever count. -/
theorem relocateSource_drops_shadowed_layered :
    relocateSource "import '@x/sub/Y.sol';\nimport 'lib/Z.sol';" "a/Z.sol" layeredTable ⟨"a", ""⟩
        = relocateSource "import '@x/sub/Y.sol';\nimport 'lib/Z.sol';" "a/Z.sol"
          [⟨"@x/", "a/"⟩, ⟨"", "c/"⟩] ⟨"a", ""⟩ ∧
      (relocateSource "import '@x/sub/Y.sol';\nimport 'lib/Z.sol';" "a/Z.sol" layeredTable
        ⟨"a", ""⟩).rewrittenLines = 2 := by
  refine ⟨?_, by decide +kernel⟩
  have hnarrow := (relocateSource_drops_shadowed [⟨"@x/", "a/"⟩] [⟨"", "c/"⟩, ⟨"lib/", "d/"⟩]
    ⟨"@x/sub", "b/"⟩ "import '@x/sub/Y.sol';\nimport 'lib/Z.sol';" "a/Z.sol" ⟨"a", ""⟩).1
    ⟨⟨"@x/", "a/"⟩, by decide, [], "sub", rfl⟩
  have hlast := (relocateSource_drops_shadowed [⟨"@x/", "a/"⟩] [⟨"lib/", "d/"⟩] ⟨"", "c/"⟩
    "import '@x/sub/Y.sol';\nimport 'lib/Z.sol';" "a/Z.sol" ⟨"a", ""⟩).2 rfl
  exact hnarrow.trans hlast

end InterfacePackage.Import
