import InterfacePackage.Proofs.Import.Meaning
import Mathlib.Data.List.Infix

/-!
# Statements stay statements

An import statement starts with white space, the keyword and more white space. Where the alias
stands behind these, neither replacing it nor collapsing the line touches them, so what becomes of
the statement is an import statement again. Main statements: `isStatement_iff` (what a statement
looks like) and `relocateLine_keeps_keyword`.
-/

namespace InterfacePackage.Import

/-! ## Letters of the keyword -/

/-- A character whose lower case is a small letter of ASCII is a letter of ASCII, or between the
capital and the small ones. -/
theorem bounds_of_toLower {c : Char} (h : 97 ≤ c.toLower.toNat ∧ c.toLower.toNat ≤ 122) :
    65 ≤ c.toNat ∧ c.toNat ≤ 122 := by
  unfold Char.toLower at h
  split at h
  · rename_i hupper
    have hlow : 65 ≤ c.toNat := hupper.1
    have hhigh : c.toNat ≤ 90 := hupper.2
    omega
  · omega

/-- So is every character of the keyword, whatever its case. -/
theorem bounds_of_eqIgnoringCase {word : Text} (h : eqIgnoringCase word keyword = true) {c : Char}
    (hc : c ∈ word) : 65 ≤ c.toNat ∧ c.toNat ≤ 122 := by
  have hsame : word.map Char.toLower = keyword.map Char.toLower := of_decide_eq_true h
  have hlower : c.toLower ∈ keyword.map Char.toLower := hsame ▸ List.mem_map_of_mem hc
  have hletters : ∀ n ∈ (keyword.map Char.toLower).map Char.toNat, 97 ≤ n ∧ n ≤ 122 := by decide
  exact bounds_of_toLower (hletters _ (List.mem_map_of_mem hlower))

/-- No character between these bounds is white space. -/
theorem isBlank_eq_false_of_bounds {c : Char} (h : 65 ≤ c.toNat ∧ c.toNat ≤ 122) :
    isBlank c = false := by
  have hcodes : ∀ n ∈ blankCodes, ¬ (65 ≤ n ∧ n ≤ 122) := by decide
  unfold isBlank
  rw [Bool.eq_false_iff]
  intro hblank
  exact hcodes _ (List.contains_iff_mem.1 hblank) h

/-- All of them are one byte long. -/
theorem utf8Size_of_bounds {c : Char} (h : 65 ≤ c.toNat ∧ c.toNat ≤ 122) : c.utf8Size = 1 := by
  apply Char.utf8Size_eq_one_iff.2
  show c.toNat ≤ 127
  omega

/-- A text of characters of one byte is cut off by its length. -/
theorem cutAtByte_append {word : Text} (h : ∀ c ∈ word, c.utf8Size = 1) (rest : Text) :
    cutAtByte word.length (word ++ rest) = some (word, rest) := by
  induction word with
  | nil => rw [List.nil_append, List.length_nil, cutAtByte]
  | cons c word ih =>
    have hsize : c.utf8Size = 1 := h c List.mem_cons_self
    have hrest := ih fun d hd => h d (List.mem_cons_of_mem _ hd)
    rw [List.cons_append, List.length_cons, cutAtByte, if_pos (by omega), hsize,
      Nat.add_sub_cancel, hrest]
    rfl

/-- What is cut off and what is left make up the text. -/
theorem eq_append_of_cutAtByte {n : Nat} {t word rest : Text}
    (h : cutAtByte n t = some (word, rest)) : t = word ++ rest := by
  induction t generalizing n word with
  | nil =>
    cases n with
    | zero =>
      rw [cutAtByte] at h
      cases h
      rfl
    | succ n =>
      rw [cutAtByte] at h
      cases h
  | cons c t ih =>
    cases n with
    | zero =>
      rw [cutAtByte] at h
      cases h
      rfl
    | succ n =>
      rw [cutAtByte] at h
      split at h
      · obtain ⟨⟨front, back⟩, hcut, heq⟩ := Option.map_eq_some_iff.1 h
        cases heq
        rw [ih hcut, List.cons_append]
      · cases h

/-! ## What a statement starts with -/

/-- White space, the keyword with any of its letters in upper case, and white space that ends it. -/
structure IsHead (blanks word : Text) (gap : Char) : Prop where
  blank : ∀ c ∈ blanks, isBlank c = true
  keyword : eqIgnoringCase word keyword = true
  ended : isBlank gap = true

/-- The start of a statement has no dot. -/
theorem IsHead.dot_notMem {blanks word : Text} {gap : Char} (h : IsHead blanks word gap) :
    '.' ∉ blanks ++ word ++ [gap] := by
  have hdot : isBlank '.' = false := by decide
  intro hmem
  rw [List.mem_append, List.mem_append, List.mem_singleton] at hmem
  rcases hmem with (hblanks | hword) | hgap
  · rw [h.blank '.' hblanks] at hdot
    cases hdot
  · have hbounds := bounds_of_eqIgnoringCase h.keyword hword
    exact absurd hbounds (by decide)
  · rw [hgap, h.ended] at hdot
    cases hdot

/-- A line is an import statement exactly if it starts with white space, the keyword and more white
space. -/
theorem isStatement_iff {line : Text} : isStatement line = true ↔
    ∃ blanks word gap tail, IsHead blanks word gap ∧ line = blanks ++ word ++ gap :: tail := by
  unfold isStatement
  constructor
  · intro h
    split at h
    · rename_i word after hcut
      rw [Bool.and_eq_true] at h
      obtain ⟨hword, hgap⟩ := h
      cases after with
      | nil => cases hgap
      | cons gap tail =>
        have hblanks : ∀ c ∈ line.takeWhile isBlank, isBlank c = true :=
          fun c hc => List.all_eq_true.1 List.all_takeWhile c hc
        have hline : line = line.takeWhile isBlank ++ line.trimStart :=
          List.takeWhile_append_dropWhile.symm
        refine ⟨line.takeWhile isBlank, word, gap, tail, ⟨hblanks, hword, hgap⟩, ?_⟩
        rw [List.append_assoc, ← eq_append_of_cutAtByte hcut]
        exact hline
    · cases h
  · rintro ⟨blanks, word, gap, tail, hhead, rfl⟩
    have hbounds : ∀ c ∈ word, 65 ≤ c.toNat ∧ c.toNat ≤ 122 :=
      fun c hc => bounds_of_eqIgnoringCase hhead.keyword hc
    have hsame : word.map Char.toLower = keyword.map Char.toLower := of_decide_eq_true hhead.keyword
    have hlength : keyword.length = word.length := by
      rw [← List.length_map Char.toLower, ← hsame, List.length_map]
    -- trimming stops at the first letter of the keyword
    have htrim : (blanks ++ word ++ gap :: tail).trimStart = word ++ gap :: tail := by
      unfold Text.trimStart
      rw [List.append_assoc, List.dropWhile_append_of_pos hhead.blank]
      cases word with
      | nil => cases hlength
      | cons c word =>
        apply List.dropWhile_cons_of_neg
        rw [isBlank_eq_false_of_bounds (hbounds c List.mem_cons_self)]
        exact Bool.false_ne_true
    rw [htrim, hlength, cutAtByte_append fun c hc => utf8Size_of_bounds (hbounds c hc)]
    show (eqIgnoringCase word keyword && isBlank gap) = true
    rw [hhead.keyword, hhead.ended]
    rfl

/-! ## Relocation behind the start of a line -/

/-- Replacing an alias keeps all that stands before it. -/
theorem prefix_relocate {head front after : Text} {r : Remapping}
    (hfirst : Text.IsFirst r.origin (head ++ front) after) (file : Path) (anchor : Text) :
    head <+: relocate (head ++ front ++ r.origin ++ after) file r anchor := by
  unfold relocate
  rw [replaceFirst_of_isFirst hfirst, List.append_assoc, List.append_assoc]
  exact List.prefix_append _ _

/-- The text up to the first dot of a line starts with all that has no dot. -/
theorem prefix_uptoDot {head line : Text} (hhead : head <+: line) (hfree : '.' ∉ head)
    (hdot : '.' ∈ line) : head <+: uptoDot line := by
  unfold uptoDot
  cases hcut : Text.cutAt ['.'] line with
  | none =>
    have hoccurs : ['.'] <:+: line := (List.singleton_infix_iff '.' line).2 hdot
    exact absurd hoccurs (Text.cutAt_eq_none_iff.1 hcut)
  | some sides =>
    have hupto : sides.1 ++ ['.'] <+: line := ⟨sides.2, (Text.eq_of_cutAt hcut).symm⟩
    -- the shorter of two starts of the line starts the longer one
    rcases List.prefix_or_prefix_of_prefix hhead hupto with hshort | hlong
    · exact hshort
    · exact absurd (hlong.subset (List.mem_append_right _ (List.mem_singleton_self _))) hfree

/-- Collapsing keeps the start of a line as well, if that has no dot and the line has one where it
counts. -/
theorem prefix_collapse {head line marker : Text} (hhead : head <+: line) (hfree : '.' ∉ head)
    (hdot : ¬ marker <:+: line ∨ '.' ∈ line) : head <+: collapse line marker := by
  unfold collapse
  cases hcut : Text.cutAt marker line with
  | none => exact hhead
  | some sides =>
    have hoccurs : marker <:+: line := ⟨sides.1, sides.2, (Text.eq_of_cutAt hcut).symm⟩
    have hupto := prefix_uptoDot hhead hfree (hdot.resolve_left (not_not_intro hoccurs))
    exact hupto.trans (List.prefix_append _ _)

/-- A relocated import stays an import. If the alias that is found for a statement first occurs
behind its keyword, and the line with the alias replaced has no marker or has a dot, then the
relocated line starts as the statement does and is an import statement. -/
theorem relocateLine_keeps_keyword {blanks word tail : Text} {gap : Char}
    (hhead : IsHead blanks word gap) (file : Path) (table : Table) (layout : Layout)
    (hbehind : ∀ r, table.resolve (blanks ++ word ++ gap :: tail) = some r →
      (∃ front after, tail = front ++ r.origin ++ after ∧
        Text.IsFirst r.origin (blanks ++ word ++ gap :: front) after) ∧
      (¬ layout.modulesMarker <:+: relocate (blanks ++ word ++ gap :: tail) file r layout.anchor ∨
        '.' ∈ relocate (blanks ++ word ++ gap :: tail) file r layout.anchor)) :
    blanks ++ word ++ [gap] <+: relocateLine (blanks ++ word ++ gap :: tail) file table layout ∧
      isStatement (relocateLine (blanks ++ word ++ gap :: tail) file table layout) = true := by
  have hstart : blanks ++ word ++ [gap]
      <+: relocateLine (blanks ++ word ++ gap :: tail) file table layout := by
    have hline : blanks ++ word ++ [gap] <+: blanks ++ word ++ gap :: tail := ⟨tail, by simp⟩
    unfold relocateLine
    split
    · cases hresolve : table.resolve (blanks ++ word ++ gap :: tail) with
      | none => exact hline
      | some r =>
        obtain ⟨⟨front, after, rfl, hfirst⟩, hdot⟩ := hbehind r hresolve
        refine prefix_collapse ?_ hhead.dot_notMem hdot
        have hsplit : blanks ++ word ++ gap :: (front ++ r.origin ++ after)
            = blanks ++ word ++ [gap] ++ front ++ r.origin ++ after := by simp
        rw [hsplit]
        apply prefix_relocate
        simpa using hfirst
    · exact hline
  obtain ⟨rest, hrest⟩ := hstart
  refine ⟨⟨rest, hrest⟩, isStatement_iff.2 ⟨blanks, word, gap, rest, hhead, ?_⟩⟩
  rw [← hrest, List.append_assoc _ [gap], List.singleton_append]

/-- A keyword of mixed case between other white space than blanks, and a marker that first occurs in
the keyword. All behind that is put behind the dot once more, and the line is still an import. -/
theorem relocateLine_keeps_keyword_doubled :
    relocateLine "\u3000 ImPorT\u00a0'@x/A';" "a/B.sol" [⟨"@x/", "a/"⟩] ⟨"a", "Por"⟩
        = "\u3000 ImPorT\u00a0'.T\u00a0'./A';" ∧
      isStatement (relocateLine "\u3000 ImPorT\u00a0'@x/A';" "a/B.sol" [⟨"@x/", "a/"⟩] ⟨"a", "Por"⟩)
        = true := by
  have hblanks : List.all "\u3000 ".toList isBlank = true := by decide
  have hhead : IsHead "\u3000 " "ImPorT" '\u00a0' :=
    ⟨List.all_eq_true.1 hblanks, by decide, by decide⟩
  refine ⟨by decide +kernel, ?_⟩
  refine (@relocateLine_keeps_keyword "\u3000 " "ImPorT" "'@x/A';" '\u00a0' hhead "a/B.sol"
    [⟨"@x/", "a/"⟩] ⟨"a", "Por"⟩ ?_).2
  intro r hr
  obtain rfl : r = ⟨"@x/", "a/"⟩ := by
    have hfound : Table.resolve [⟨"@x/", "a/"⟩] "\u3000 ImPorT\u00a0'@x/A';"
        = some ⟨"@x/", "a/"⟩ := by decide +kernel
    exact Option.some.inj (hr.symm.trans hfound)
  have hfirst : Text.IsFirst "@x/" "\u3000 ImPorT\u00a0'" "A';" :=
    @Text.isFirst_of_cutAt "@x/" "\u3000 ImPorT\u00a0'@x/A';" _ _ (by decide)
  exact ⟨⟨"'", "A';", rfl, hfirst⟩, .inr (by decide +kernel)⟩

end InterfacePackage.Import
