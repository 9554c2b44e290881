import InterfacePackage.Proofs.Import.Package

/-!
# Relocating what was relocated

A table whose aliases all have a mark that nothing else in the project has is spent in one pass. An
alias of a place of the project is gone from its line. The alias of a package is still there, but
its line is then relocated to itself, wherever the file stands. Main statement:
`relocateSource_settles`.
-/

namespace InterfacePackage.Import

/-! ## Characters of relocated lines -/

/-- A fragment is made of dots, slashes and characters of the file and the destination. -/
theorem mem_of_mem_relativePrefix {file : Path} {destination anchor : Text} {c : Char}
    (h : c ∈ relativePrefix file destination anchor) :
    c = '.' ∨ c = '/' ∨ c ∈ file ∨ c ∈ destination := by
  have hcandidate : ∀ x, x ∈ candidate file destination anchor → x ∈ file ∨ x ∈ destination := by
    intro x hx
    unfold candidate at hx
    split at hx
    · rename_i before after hcut
      have hfile := Text.eq_of_cutAt hcut
      refine (List.mem_append.1 hx).imp_left fun hbefore => ?_
      rw [hfile]
      exact List.mem_append_left _ (List.mem_append_left _ hbefore)
    · exact .inl hx
  have hway : c ∈ Path.render (Path.relativeTo (candidate file destination anchor)
      (directory file)) → c = '.' ∨ c = '/' ∨ c ∈ file ∨ c ∈ destination := by
    intro hc
    rcases Path.mem_of_mem_render hc with hc | ⟨x, hx, hc⟩
    · exact .inr (.inl hc)
    rcases Path.mem_of_mem_relativeTo hx with hx | rfl
    · exact .inr (.inr (hcandidate c (Path.mem_of_mem_components hx hc)))
    · have hdots : c ∈ ['.', '.'] := hc
      exact .inl (by simpa using hdots)
  rw [relativePrefix_eq, written] at h
  split at h
  · have hchars : c ∈ ['.', '/'] := h
    rcases List.mem_cons.1 hchars with hc | hc
    · exact .inl hc
    · exact .inr (.inl (List.mem_singleton.1 hc))
  · rcases List.mem_append.1 h with hc | hc
    · exact hway hc
    · exact .inr (.inl (List.mem_singleton.1 hc))

/-- Collapsing a line adds no characters. -/
theorem mem_of_mem_collapse {line marker : Text} {c : Char} (h : c ∈ collapse line marker) :
    c ∈ line := by
  unfold collapse at h
  split at h
  · rename_i before after hcut
    rcases List.mem_append.1 h with hc | hc
    · unfold uptoDot at hc
      split at hc
      · rename_i start rest hdot
        rw [Text.eq_of_cutAt hdot]
        exact List.mem_append_left _ hc
      · cases hc
    · rw [Text.eq_of_cutAt hcut]
      exact List.mem_append_right _ hc
  · exact h

/-- A character that neither the line nor what is put into it has is not in the relocated line. -/
theorem notMem_relocated {c : Char} {before after marker anchor : Text}
    {file : Path} {r : Remapping} (hfirst : Text.IsFirst r.origin before after)
    (hbefore : c ∉ before) (hafter : c ∉ after)
    (hfile : c ∉ file) (hdestination : c ∉ r.destination) (hdot : c ≠ '.') (hslash : c ≠ '/') :
    c ∉ collapse (relocate (before ++ r.origin ++ after) file r anchor) marker := by
  intro hc
  have hmem := mem_of_mem_collapse hc
  rw [relocate, replaceFirst_of_isFirst hfirst, List.mem_append, List.mem_append] at hmem
  rcases hmem with (hmem | hmem) | hmem
  · exact hbefore hmem
  · rcases mem_of_mem_relativePrefix hmem with hc | hc | hc | hc
    · exact hdot hc
    · exact hslash hc
    · exact hfile hc
    · exact hdestination hc
  · exact hafter hmem

/-- A text cut at a dot has no characters but the dot and those of its parts. -/
theorem notMem_dotted {c : Char} {before rest : Text} (hdot : c ≠ '.') (hbefore : c ∉ before)
    (hrest : c ∉ rest) : c ∉ dotted before rest := by
  intro hmem
  rw [dotted, List.mem_append, List.mem_cons] at hmem
  rcases hmem with hmem | hmem | hmem
  · exact hbefore ((List.takeWhile_prefix _).subset hmem)
  · exact hdot hmem
  · exact hrest hmem

/-! ## Lines that have been relocated -/

/-- A table resolves another line alike if the rule occurs there too and no rule is new. -/
theorem resolve_of_contains {table : Table} {line line' : Text} {r : Remapping}
    (hresolve : table.resolve line = some r) (hr : Text.contains line' r.origin = true)
    (hold : ∀ o ∈ table, Text.contains line' o.origin = true →
      Text.contains line o.origin = true) : table.resolve line' = some r := by
  obtain ⟨-, front, back, htable, hfront⟩ := List.find?_eq_some_iff_append.1 hresolve
  refine List.find?_eq_some_iff_append.2 ⟨hr, front, back, htable, fun o ho => ?_⟩
  have hnot := hfront o ho
  simp only [Bool.not_eq_true'] at hnot ⊢
  refine Bool.eq_false_iff.2 fun hcontains => ?_
  have hmem : o ∈ table := htable ▸ List.mem_append_left _ ho
  rw [hold o hmem hcontains] at hnot
  exact absurd hnot Bool.noConfusion

/-- A line without a character that every alias has is left alone. -/
theorem relocateLine_of_notMem {c : Char} {line : Text} {table : Table} (file : Path)
    (layout : Layout) (hline : c ∉ line) (htable : ∀ r ∈ table, c ∈ r.origin) :
    relocateLine line file table layout = line := by
  have hresolve : table.resolve line = none := by
    refine List.find?_eq_none.2 fun r hr hcontains => ?_
    exact hline ((Text.contains_iff.1 hcontains).subset (htable r hr))
  rw [relocateLine, hresolve]
  split <;> rfl

/-! ## One pass is enough -/

/-- The rules that one pass settles: their aliases have the mark `c` and no dot, and each stands for
a place without the mark or for a package of its own name in the directory `modules`. -/
structure IsSettling (c : Char) (modules : List Text) (table : Table) : Prop where
  marked : ∀ r ∈ table, c ∈ r.origin
  dotless : ∀ r ∈ table, '.' ∉ r.origin
  stands : ∀ r ∈ table, c ∉ r.destination ∨ r.IsPackage modules

/-- A file without the mark, in some directory below the place of the anchor and not among the
installed packages there. -/
structure IsUnmarked (c : Char) (modules : List Text) (anchor : Text) (file : Path) : Prop where
  free : c ∉ file
  rooted : ∃ above steps, IsRooted anchor file above steps ∧ steps.head? ≠ modules.head?

/-- The rest of a line with the mark at most once does not have it, next to a text that does. -/
theorem notMem_of_count_le {c : Char} {before origin after : Text} (horigin : c ∈ origin)
    (h : (before ++ origin ++ after).count c ≤ 1) : c ∉ before ∧ c ∉ after := by
  have hpos : 0 < origin.count c := List.count_pos_iff.2 horigin
  rw [List.count_append, List.count_append] at h
  constructor
  · intro hbefore
    have hmore : 0 < before.count c := List.count_pos_iff.2 hbefore
    omega
  · intro hafter
    have hmore : 0 < after.count c := List.count_pos_iff.2 hafter
    omega

section

variable {c : Char} {modules : List Text} {table : Table} {layout : Layout}
  (hmodules : ∀ n ∈ modules, IsNormal n ∧ '.' ∉ n) (hne : modules ≠ [])
  (hmarker : layout.modulesMarker = Path.slashEnded modules)

include hmodules hne hmarker

/-- The relocated line of a package is relocated to itself in any other file. -/
theorem relocateLine_package_again {file : Path} {before after : Text} {r : Remapping}
    (htable : IsSettling c modules table) (hfile : IsUnmarked c modules layout.anchor file)
    (hr : r ∈ table) (hpackage : r.IsPackage modules) (hbefore : c ∉ before)
    (hresolve : table.resolve (before ++ r.origin ++ after) = some r)
    (hclear : Text.contains (before ++ r.origin ++ after) layout.modulesMarker = false) :
    relocateLine (dotted before (r.origin ++ after)) file table layout
      = dotted before (r.origin ++ after) := by
  obtain ⟨above, steps, hrooted, houtside⟩ := hfile.rooted
  have hagain : table.resolve (dotted before (r.origin ++ after)) = some r := by
    refine resolve_of_contains hresolve (Text.contains_iff.2 ?_) fun o ho hcontains => ?_
    · exact ⟨before.takeWhile (· ≠ '.') ++ ['.'], after, by simp [dotted]⟩
    · rw [Text.contains_iff] at hcontains ⊢
      exact infix_of_infix_dotted (htable.dotless o ho) hcontains
  have hfirst : Text.IsFirst r.origin (before.takeWhile (· ≠ '.') ++ ['.']) after := by
    intro b a heq
    rw [← dotted_append] at heq
    rcases Text.occurs_apart (htable.dotless r hr) heq with ⟨a', hin⟩ | ⟨b', hb, -⟩
    · -- the alias would bring its mark to the start of the line
      have hmem : c ∈ before.takeWhile (· ≠ '.') := by
        rw [hin]
        exact List.mem_append_left _ (List.mem_append_right _ (htable.marked r hr))
      exact absurd ((List.takeWhile_prefix _).subset hmem) hbefore
    · rw [hb]
      simp
  have hnone : ¬ Path.slashEnded modules <:+: before.takeWhile (· ≠ '.') ++ ['.'] := by
    intro hin
    have hlonger : Path.slashEnded modules <:+: dotted before (r.origin ++ after) :=
      hin.trans ⟨[], r.origin ++ after, by simp [dotted]⟩
    rw [hmarker, Text.contains_eq_false_iff] at hclear
    exact hclear (infix_of_infix_dotted (dot_notMem_marker hmodules) hlonger)
  rw [relocateLine, hagain, hmarker]
  dsimp only
  split
  · rw [dotted_append, collapse_relocate_package hrooted hmodules hne houtside hpackage hfirst
      hnone, dotted_dotted, dotted_append]
  · rfl

/-- What a line becomes in one file has no line that changes in another. -/
theorem relocateLine_settles {file₁ file₂ : Path} {line : Text}
    (htable : IsSettling c modules table) (hdot : c ≠ '.') (hslash : c ≠ '/')
    (h₁ : IsUnmarked c modules layout.anchor file₁) (h₂ : IsUnmarked c modules layout.anchor file₂)
    (hbreak : '\n' ∉ line)
    (hfresh : isStatement line = true → line.count c ≤ 1 ∧
      Text.contains line layout.modulesMarker = false) :
    ∀ piece ∈ Text.split '\n' (relocateLine line file₁ table layout),
      relocateLine piece file₂ table layout = piece := by
  -- a line that is left alone in the first file is left alone in the second
  have hkept : ∀ file, relocateLine line file table layout = line →
      ∀ piece ∈ Text.split '\n' line, relocateLine piece file table layout = piece := by
    intro file hline piece hpiece
    rw [Text.split_of_notMem hbreak, List.mem_singleton] at hpiece
    rw [hpiece, hline]
  by_cases hstatement : isStatement line = true
  case neg =>
    have hline : ∀ file, relocateLine line file table layout = line := by
      intro file
      rw [relocateLine, if_neg hstatement]
    rw [hline file₁]
    exact hkept file₂ (hline file₂)
  obtain ⟨hcount, hclear⟩ := hfresh hstatement
  cases hresolve : table.resolve line with
  | none =>
    have hline : ∀ file, relocateLine line file table layout = line := by
      intro file
      rw [relocateLine, if_pos hstatement, hresolve]
    rw [hline file₁]
    exact hkept file₂ (hline file₂)
  | some r =>
    have hr : r ∈ table := List.mem_of_find?_eq_some hresolve
    have hcontains : Text.contains line r.origin = true :=
      (List.find?_eq_some_iff_append.1 hresolve).1
    obtain ⟨⟨before, after⟩, hcut⟩ := Option.isSome_iff_exists.1 hcontains
    obtain ⟨rfl, hfirst⟩ := Text.cutAt_eq_some_iff.1 hcut
    obtain ⟨hbefore, hafter⟩ := notMem_of_count_le (htable.marked r hr) hcount
    rw [relocateLine, if_pos hstatement, hresolve]
    dsimp only
    rcases htable.stands r hr with hdestination | hpackage
    · -- the mark is gone with the alias
      have hfree : c ∉ collapse (relocate (before ++ r.origin ++ after) file₁ r layout.anchor)
          layout.modulesMarker :=
        notMem_relocated hfirst hbefore hafter h₁.free hdestination hdot hslash
      intro piece hpiece
      exact relocateLine_of_notMem file₂ layout
        (fun hc => hfree (Text.mem_of_mem_split hpiece hc)) htable.marked
    · obtain ⟨above, steps, hrooted, houtside⟩ := h₁.rooted
      have hnone : ¬ Path.slashEnded modules <:+: before := by
        intro hin
        rw [hmarker, Text.contains_eq_false_iff] at hclear
        exact hclear (hin.trans ⟨[], r.origin ++ after, by simp⟩)
      rw [hmarker, collapse_relocate_package hrooted hmodules hne houtside hpackage hfirst hnone]
      have hone : '\n' ∉ dotted before (r.origin ++ after) := by
        simp only [List.mem_append, not_or] at hbreak
        refine notMem_dotted (by decide) hbreak.1.1 fun hmem => ?_
        exact (List.mem_append.1 hmem).elim hbreak.1.2 hbreak.2
      intro piece hpiece
      rw [Text.split_of_notMem hone, List.mem_singleton] at hpiece
      rw [hpiece]
      exact relocateLine_package_again hmodules hne hmarker htable h₂ hr hpackage hbefore hresolve
        hclear

end

/-- A source with no line that changes is relocated to itself. -/
theorem relocateSource_of_lines {source : Text} {file : Path} {table : Table} {layout : Layout}
    (h : ∀ line ∈ Text.split '\n' source, relocateLine line file table layout = line) :
    (relocateSource source file table layout).text = source
      ∧ (relocateSource source file table layout).rewrittenLines = 0 := by
  have hmap : (Text.split '\n' source).map (relocateLine · file table layout)
      = Text.split '\n' source := by
    calc (Text.split '\n' source).map (relocateLine · file table layout)
        = (Text.split '\n' source).map id := List.map_congr_left h
      _ = Text.split '\n' source := List.map_id _
  simp only [relocateSource, hmap]
  refine ⟨Text.join_split '\n' source, ?_⟩
  have hzip : (Text.split '\n' source).zip (Text.split '\n' source)
      = (Text.split '\n' source).map fun line => (line, line) := by
    simpa using @List.zip_map' _ _ _ id id (Text.split '\n' source)
  rw [List.length_eq_zero_iff, List.filter_eq_nil_iff, hzip]
  intro pair hpair
  obtain ⟨line, -, rfl⟩ := List.mem_map.1 hpair
  simp

/-- One pass is enough: a table whose aliases all have a mark that no file of the project has leaves
nothing to be done to a source that it was applied to, in the same or in another file. -/
theorem relocateSource_settles {c : Char} {modules : List Text} {table : Table} {layout : Layout}
    {file₁ file₂ : Path} {source : Text} (hdot : c ≠ '.') (hslash : c ≠ '/')
    (hmodules : ∀ n ∈ modules, IsNormal n ∧ '.' ∉ n) (hne : modules ≠ [])
    (hmarker : layout.modulesMarker = Path.slashEnded modules)
    (htable : IsSettling c modules table)
    (h₁ : IsUnmarked c modules layout.anchor file₁) (h₂ : IsUnmarked c modules layout.anchor file₂)
    (hfresh : ∀ line ∈ Text.split '\n' source, isStatement line = true →
      line.count c ≤ 1 ∧ Text.contains line layout.modulesMarker = false) :
    (relocateSource (relocateSource source file₁ table layout).text file₂ table layout).text
        = (relocateSource source file₁ table layout).text
      ∧ (relocateSource (relocateSource source file₁ table layout).text file₂ table
        layout).rewrittenLines = 0 := by
  apply relocateSource_of_lines
  intro piece hpiece
  have hlines : (Text.split '\n' source).map (relocateLine · file₁ table layout) ≠ [] := by
    simp [Text.split_ne_nil]
  have hsplit : Text.split '\n' (relocateSource source file₁ table layout).text
      = ((Text.split '\n' source).map (relocateLine · file₁ table layout)).flatMap
        (Text.split '\n') := Text.split_join_flatMap hlines
  rw [hsplit, List.mem_flatMap] at hpiece
  obtain ⟨changed, hchanged, hpiece⟩ := hpiece
  obtain ⟨line, hline, rfl⟩ := List.mem_map.1 hchanged
  exact relocateLine_settles hmodules hne hmarker htable hdot hslash h₁ h₂
    (Text.notMem_of_mem_split hline) (hfresh line hline) piece hpiece

/-- One alias of the project and one of a package, both marked by an `@`. -/
def scopedTable : Table :=
  [⟨"@interfaces/", "solidity/interfaces/"⟩,
    ⟨"@openzeppelin/contracts/", "node_modules/@openzeppelin/contracts/"⟩]

/-- A source that imports through both aliases. -/
def scopedSource : Text :=
  "import '@interfaces/IA.sol';\nimport {IERC20} from '@openzeppelin/contracts/IERC20.sol';\n"

/-- Both imports of a source change once, and not again as another file. -/
theorem relocateSource_settles_scoped :
    (relocateSource scopedSource "./solidity/interfaces/IB.sol" scopedTable {}).rewrittenLines = 2
      ∧ (relocateSource (relocateSource scopedSource "./solidity/interfaces/IB.sol" scopedTable
          {}).text "/root/solidity/contracts/deep/C.sol" scopedTable {}).rewrittenLines = 0 := by
  have hshallow : IsUnmarked '@' ["node_modules"] "solidity" "./solidity/interfaces/IB.sol" :=
    ⟨by decide, "./", ["solidity", "interfaces", "IB.sol"],
      ⟨by decide, by decide, ⟨"/interfaces/IB.sol", by decide,
        @Text.isFirst_of_cutAt "solidity" "./solidity/interfaces/IB.sol" _ _ (by decide)⟩,
        by decide, by decide⟩, by decide⟩
  have hdeep : IsUnmarked '@' ["node_modules"] "solidity" "/root/solidity/contracts/deep/C.sol" :=
    ⟨by decide, "/root/", ["solidity", "contracts", "deep", "C.sol"],
      ⟨by decide, by decide, ⟨"/contracts/deep/C.sol", by decide,
        @Text.isFirst_of_cutAt "solidity" "/root/solidity/contracts/deep/C.sol" _ _ (by decide)⟩,
        by decide, by decide⟩, by decide⟩
  have htable : IsSettling '@' ["node_modules"] scopedTable := by
    refine ⟨by decide, by decide, fun r hr => ?_⟩
    rcases List.mem_cons.1 hr with rfl | hr
    · exact .inl (by decide)
    · rw [List.mem_singleton.1 hr]
      exact .inr ⟨⟨["@openzeppelin", "contracts"], by decide, by decide⟩, by decide⟩
  refine ⟨by decide +kernel, ?_⟩
  exact (@relocateSource_settles '@' ["node_modules"] scopedTable {} _ _ scopedSource (by decide)
    (by decide) (by decide) (by decide) (by decide) htable hshallow hdeep (by decide +kernel)).2

end InterfacePackage.Import
