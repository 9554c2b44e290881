import InterfacePackage.Proofs.Import.Lines

/-!
# Tables and their written form

A table can be written one remapping to a line when its sides are trimmed, no side has a line feed
and no origin has `=`. Every table that is read from a text is of this kind, and a table of this
kind is read from what is written for it, without a warning. Main statement:
`ofText_agrees_with_render`.
-/

namespace InterfacePackage

namespace Text

/-! ## Trimmed texts -/

/-- A text with no white space at either end. -/
def IsTrimmed (t : Text) : Prop := t.trim = t

instance (t : Text) : Decidable (IsTrimmed t) := inferInstanceAs (Decidable (t.trim = t))

/-- Whether white space is dropped from the start of a text shows in its first character. -/
theorem trimStart_eq_self_iff {t : Text} :
    t.trimStart = t ↔ ∀ c, t.head? = some c → isBlank c = false := by
  cases t with
  | nil => simp [trimStart]
  | cons c t =>
    have hhead : (∀ d, (c :: t).head? = some d → isBlank d = false) ↔ isBlank c = false := by simp
    rw [hhead, trimStart]
    cases hc : isBlank c with
    | false => simp [hc]
    | true =>
      rw [List.dropWhile_cons_of_pos hc]
      refine iff_of_false (fun heq => ?_) (by simp)
      have hlength := (List.dropWhile_suffix (p := isBlank) (l := t)).length_le
      rw [heq, List.length_cons] at hlength
      omega

/-- At the end of a text it shows in the last one. -/
theorem trimEnd_eq_self_iff {t : Text} :
    t.trimEnd = t ↔ ∀ c, t.getLast? = some c → isBlank c = false := by
  rw [← List.head?_reverse, ← trimStart_eq_self_iff, trimEnd, trimStart, List.reverse_eq_iff]

/-- A text is trimmed when it neither starts nor ends with white space. -/
theorem isTrimmed_iff {t : Text} :
    IsTrimmed t ↔ (∀ c, t.head? = some c → isBlank c = false) ∧
      ∀ c, t.getLast? = some c → isBlank c = false := by
  rw [← trimStart_eq_self_iff, ← trimEnd_eq_self_iff, IsTrimmed, trim]
  constructor
  · intro h
    -- neither step can take anything away, since the other one brings nothing back
    have hend : (trimEnd t.trimStart).length ≤ t.trimStart.length := by
      have hle := (List.dropWhile_suffix (p := isBlank) (l := t.trimStart.reverse)).length_le
      rwa [List.length_reverse, ← List.length_reverse] at hle
    have hstart : t.trimStart = t :=
      (List.dropWhile_suffix _).eq_of_length_le (by rw [h] at hend; exact hend)
    rw [hstart] at h
    exact ⟨hstart, h⟩
  · rintro ⟨hstart, hend⟩
    rw [hstart, hend]

/-- Trimming leaves a trimmed text. -/
theorem isTrimmed_trim (t : Text) : IsTrimmed t.trim := by
  have hstart : ∀ c, t.trimStart.head? = some c → isBlank c = false := by
    intro c hc
    have hfirst := List.head?_dropWhile_not isBlank t
    rw [show t.dropWhile isBlank = t.trimStart from rfl, hc] at hfirst
    exact hfirst
  rw [isTrimmed_iff]
  constructor
  · -- what is left when the end is cut off starts as before
    intro c hc
    obtain ⟨back, hback⟩ : t.trim <+: t.trimStart := by
      rw [trim, trimEnd, ← List.reverse_suffix, List.reverse_reverse]
      exact List.dropWhile_suffix _
    apply hstart
    rw [← hback, List.head?_append, hc, Option.some_or]
  · intro c hc
    rw [trim, trimEnd, List.getLast?_reverse] at hc
    have hfirst := List.head?_dropWhile_not isBlank t.trimStart.reverse
    rw [hc] at hfirst
    exact hfirst

end Text

namespace Import

/-! ## Remappings in one line -/

/-- A remapping that can be written in a line: its sides are trimmed and have no line feed, and the
first `=` of the line is the one between them. -/
structure Remapping.IsWritable (r : Remapping) : Prop where
  origin_trimmed : r.origin.IsTrimmed
  equals_notMem_origin : '=' ∉ r.origin
  lineFeed_notMem_origin : '\n' ∉ r.origin
  destination_trimmed : r.destination.IsTrimmed
  lineFeed_notMem_destination : '\n' ∉ r.destination

/-- A table of such remappings. -/
def Table.IsWritable (table : Table) : Prop := ∀ r ∈ table, r.IsWritable

namespace Remapping

variable {r : Remapping} {line : Text}

/-- The sides of a remapping are read from its line. -/
theorem ofLine_line (h : r.IsWritable) : ofLine r.line = r := by
  have hcut : Text.cutAt ['='] r.line = some (r.origin, r.destination) :=
    Text.cutAt_singleton_eq_some_iff.2 ⟨rfl, h.equals_notMem_origin⟩
  rw [ofLine, hcut]
  show Remapping.mk r.origin.trim r.destination.trim = r
  rw [h.origin_trimmed, h.destination_trimmed]

/-- Nothing is trimmed from the line of a remapping: where a side is empty, the line starts or ends
with the `=`. -/
theorem isTrimmed_line (h : r.IsWritable) : r.line.IsTrimmed := by
  rw [Text.isTrimmed_iff, line]
  constructor
  · intro c hc
    rw [List.head?_append, List.head?_cons] at hc
    cases horigin : r.origin.head? with
    | none =>
      rw [horigin, Option.none_or, Option.some_inj] at hc
      subst hc
      rfl
    | some d =>
      rw [horigin, Option.some_or, Option.some_inj] at hc
      subst hc
      exact (Text.isTrimmed_iff.1 h.origin_trimmed).1 d horigin
  · intro c hc
    rw [List.getLast?_append, List.getLast?_cons, Option.some_or, Option.some_inj] at hc
    subst hc
    cases hdestination : r.destination.getLast? with
    | none => rfl
    | some d => exact (Text.isTrimmed_iff.1 h.destination_trimmed).2 d hdestination

/-- The line of a remapping is one line. -/
theorem lineFeed_notMem_line (h : r.IsWritable) : '\n' ∉ r.line := by
  rw [line, List.mem_append, List.mem_cons]
  rintro (horigin | heq | hdestination)
  · exact h.lineFeed_notMem_origin horigin
  · cases heq
  · exact h.lineFeed_notMem_destination hdestination

/-- What is read from a trimmed line without line feeds can be written in a line. -/
theorem isWritable_ofLine (htrimmed : line.IsTrimmed) (hline : '\n' ∉ line) :
    (ofLine line).IsWritable := by
  have horigin : '\n' ∉ (ofLine line).origin := fun h => hline (mem_of_mem_ofLine (.inl h))
  have hdestination : '\n' ∉ (ofLine line).destination := fun h =>
    hline (mem_of_mem_ofLine (.inr h))
  cases hcut : Text.cutAt ['='] line with
  | some sides =>
    have hsides : ofLine line = ⟨sides.1.trim, sides.2.trim⟩ := by rw [ofLine, hcut]
    rw [hsides] at horigin hdestination ⊢
    have hfree : '=' ∉ sides.1 := (Text.cutAt_singleton_eq_some_iff.1 hcut).2
    exact ⟨Text.isTrimmed_trim _, fun h => hfree (Text.mem_of_mem_trim h), horigin,
      Text.isTrimmed_trim _, hdestination⟩
  | none =>
    have hsides : ofLine line = ⟨line, []⟩ := by rw [ofLine, hcut]
    rw [hsides] at horigin hdestination ⊢
    refine ⟨htrimmed, fun h => ?_, horigin, rfl, hdestination⟩
    obtain ⟨before, after, rfl⟩ := List.append_of_mem h
    have hfound : Text.cutAt ['='] (before ++ ['='] ++ after) ≠ none := Text.cutAt_ne_none
    rw [List.append_assoc, List.singleton_append] at hfound
    exact hfound hcut

end Remapping

namespace Table

variable {table : Table}

/-- The lines of a written table, and nothing behind its last line feed. -/
theorem split_render (h : table.IsWritable) :
    Text.split '\n' table.render = table.map Remapping.line ++ [[]] := by
  induction table with
  | nil => rfl
  | cons r table ih =>
    have hr := h r List.mem_cons_self
    have hrender : render (r :: table) = r.line ++ '\n' :: render table := by simp [render]
    rw [hrender, Text.split_append, Text.split_of_notMem (Remapping.lineFeed_notMem_line hr),
      ih fun s hs => h s (List.mem_cons_of_mem _ hs)]
    rfl

/-- They are all there after trimming, and none of them is blank. -/
theorem lines_render (h : table.IsWritable) : lines table.render = table.map Remapping.line := by
  have htrim : (table.map Remapping.line).map Text.trim = table.map Remapping.line := by
    rw [List.map_map]
    exact List.map_congr_left fun r hr => Remapping.isTrimmed_line (h r hr)
  have hkept : (table.map Remapping.line).filter (· ≠ []) = table.map Remapping.line := by
    rw [List.filter_eq_self]
    intro line hline
    obtain ⟨r, _, rfl⟩ := List.mem_map.1 hline
    simp [Remapping.line]
  rw [lines, split_render h, List.map_append, htrim, List.filter_append, hkept]
  exact List.append_nil _

/-- A table is read from what is written for it. -/
theorem ofText_render (h : table.IsWritable) : ofText table.render = table := by
  rw [ofText, lines_render h, List.map_map]
  calc table.map (Remapping.ofLine ∘ Remapping.line)
      = table.map id := List.map_congr_left fun r hr => Remapping.ofLine_line (h r hr)
    _ = table := List.map_id table

/-- No line of it lacks a `=`. -/
theorem missingDestinations_render (h : table.IsWritable) :
    missingDestinations table.render = [] := by
  rw [missingDestinations, lines_render h, List.map_eq_nil_iff, List.filter_eq_nil_iff]
  intro line hline
  obtain ⟨r, _, rfl⟩ := List.mem_map.1 hline
  have hcontains : Text.contains r.line ['='] = true :=
    Text.contains_iff.2 ⟨r.origin, r.destination, by simp [Remapping.line]⟩
  simp [hcontains]

/-- A table that is read from a text can be written. -/
theorem isWritable_ofText (text : Text) : (ofText text).IsWritable := by
  intro r hr
  obtain ⟨line, hline, rfl⟩ := List.mem_map.1 hr
  obtain ⟨piece, hpiece, rfl⟩ := List.mem_map.1 (List.mem_filter.1 hline).1
  exact Remapping.isWritable_ofLine (Text.isTrimmed_trim piece) fun h =>
    Text.notMem_of_mem_split hpiece (Text.mem_of_mem_trim h)

/-- Tables and their written form agree: every text gives a table that can be written, every such
table is read from its written form without a warning, and so a table that is read from a text is
read again from what is written for it. -/
theorem ofText_agrees_with_render :
    (∀ text, (ofText text).IsWritable) ∧
    (∀ table : Table, table.IsWritable →
      ofText table.render = table ∧ missingDestinations table.render = []) ∧
    ∀ text, ofText (ofText text).render = ofText text :=
  ⟨isWritable_ofText, fun _ h => ⟨ofText_render h, missingDestinations_render h⟩,
    fun text => ofText_render (isWritable_ofText text)⟩

/-- A table with an empty rule, a `=` and a carriage return inside destinations, and an origin that
comes twice. -/
def awkwardTable : Table :=
  [⟨[], []⟩, ⟨"@a/".toList, "src/a=b\r c/".toList⟩, ⟨"é ß".toList, []⟩, ⟨"@a/".toList, "=".toList⟩]

/-- It is read from its four lines. -/
theorem ofText_agrees_with_render_awkwardTable :
    awkwardTable.IsWritable ∧ awkwardTable.render = "=\n@a/=src/a=b\r c/\né ß=\n@a/==\n".toList ∧
      ofText awkwardTable.render = awkwardTable ∧ missingDestinations awkwardTable.render = [] := by
  have hwritable : awkwardTable.IsWritable := by
    intro r hr
    simp only [awkwardTable, List.mem_cons, List.not_mem_nil, or_false] at hr
    rcases hr with rfl | rfl | rfl | rfl <;>
      exact ⟨by decide, by decide, by decide, by decide, by decide⟩
  exact ⟨hwritable, by decide, ofText_agrees_with_render.2.1 awkwardTable hwritable⟩

end Table

end Import

end InterfacePackage
