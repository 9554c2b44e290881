import InterfacePackage.Package.Dependencies
import Mathlib.Data.List.Induction

/-!
# Dependencies laid over others

What is laid over dependencies is among them afterwards, so that laying it over them once more
changes nothing, and dependencies put together from their own entries are the same. From entries in
which a name comes twice the first place and the last version are kept. Main statements:
`overlay_overlay`, `ofList_entries`, `names_ofList` and `find?_reverse_of_mem_ofList`.
-/

namespace InterfacePackage

variable {name version : Text} {entries : List (Text × Text)} {e : Text × Text}

/-! ## One name given a version -/

/-- The given entry is there. -/
theorem mem_putVersion_self (name version : Text) (entries : List (Text × Text)) :
    (name, version) ∈ putVersion name version entries := by
  induction entries with
  | nil => exact List.mem_singleton_self _
  | cons e entries ih =>
    obtain ⟨n, v⟩ := e
    rw [putVersion]
    split
    · rename_i hn
      rw [hn]
      exact List.mem_cons_self
    · exact List.mem_cons_of_mem _ ih

/-- The entries of other names stay. -/
theorem mem_putVersion_of_ne (h : e ∈ entries) (hname : e.1 ≠ name) :
    e ∈ putVersion name version entries := by
  induction entries with
  | nil => cases h
  | cons f entries ih =>
    obtain ⟨n, v⟩ := f
    rw [putVersion]
    rcases List.mem_cons.1 h with rfl | h
    · rw [if_neg hname]
      exact List.mem_cons_self
    · split
      · exact List.mem_cons_of_mem _ h
      · exact List.mem_cons_of_mem _ (ih h)

/-- An entry that is there already changes nothing. -/
theorem putVersion_eq_self (hnodup : (entries.map (·.1)).Nodup) (h : (name, version) ∈ entries) :
    putVersion name version entries = entries := by
  induction entries with
  | nil => cases h
  | cons f entries ih =>
    obtain ⟨n, v⟩ := f
    rw [List.map_cons, List.nodup_cons] at hnodup
    rw [putVersion]
    rcases List.mem_cons.1 h with heq | h
    · cases heq
      rw [if_pos rfl]
    · -- the name is not that of the first entry, which it would then have twice
      have hn : n ≠ name := by
        rintro rfl
        exact hnodup.1 (List.mem_map_of_mem (f := (·.1)) h)
      rw [if_neg hn, ih hnodup.2 h]

/-- A new name comes last. -/
theorem putVersion_of_notMem (h : name ∉ entries.map (·.1)) :
    putVersion name version entries = entries ++ [(name, version)] := by
  induction entries with
  | nil => rfl
  | cons f entries ih =>
    obtain ⟨n, v⟩ := f
    rw [List.map_cons, List.mem_cons, not_or] at h
    rw [putVersion, if_neg (Ne.symm h.1), ih h.2, List.cons_append]

/-- No name is added for one that is there. -/
theorem names_putVersion_of_mem (h : name ∈ entries.map (·.1)) :
    (putVersion name version entries).map (·.1) = entries.map (·.1) := by
  induction entries with
  | nil => cases h
  | cons f entries ih =>
    obtain ⟨n, v⟩ := f
    rw [putVersion]
    by_cases hn : n = name
    · rw [if_pos hn]
      rfl
    · rw [if_neg hn, List.map_cons, List.map_cons]
      exact congrArg _ (ih ((List.mem_cons.1 h).resolve_left (Ne.symm hn)))

/-- What is there afterwards was given, or was there before under another name. -/
theorem mem_putVersion (hnodup : (entries.map (·.1)).Nodup)
    (h : e ∈ putVersion name version entries) :
    e = (name, version) ∨ e.1 ≠ name ∧ e ∈ entries := by
  induction entries with
  | nil => exact .inl (List.mem_singleton.1 h)
  | cons f entries ih =>
    obtain ⟨n, v⟩ := f
    rw [List.map_cons, List.nodup_cons] at hnodup
    rw [putVersion] at h
    split at h
    · rename_i hn
      rcases List.mem_cons.1 h with rfl | h
      · exact .inl (by rw [hn])
      · refine .inr ⟨?_, List.mem_cons_of_mem _ h⟩
        rintro heq
        exact hnodup.1 (hn ▸ heq ▸ List.mem_map_of_mem (f := (·.1)) h)
    · rename_i hn
      rcases List.mem_cons.1 h with rfl | h
      · exact .inr ⟨hn, List.mem_cons_self⟩
      · obtain heq | ⟨hname, hmem⟩ := ih hnodup.2 h
        · exact .inl heq
        · exact .inr ⟨hname, List.mem_cons_of_mem _ hmem⟩

namespace Dependencies

variable {d : Dependencies} {others : List (Text × Text)}

/-- Dependencies with the same entries are the same. -/
@[ext]
theorem ext {d d' : Dependencies} (h : d.entries = d'.entries) : d = d' := by
  cases d
  cases d'
  cases h
  rfl

theorem overlay_cons (d : Dependencies) (e : Text × Text) (others : List (Text × Text)) :
    d.overlay (e :: others) = (d.insert e.1 e.2).overlay others := rfl

/-! ## Others laid over -/

/-- An entry whose name the others do not have stays. -/
theorem mem_overlay_of_notMem (h : e ∈ d.entries) (hname : e.1 ∉ others.map (·.1)) :
    e ∈ (d.overlay others).entries := by
  induction others generalizing d with
  | nil => exact h
  | cons f others ih =>
    rw [List.map_cons, List.mem_cons, not_or] at hname
    rw [overlay_cons]
    exact ih (mem_putVersion_of_ne h hname.1) hname.2

/-- What is laid over is there. -/
theorem mem_overlay (hnodup : (others.map (·.1)).Nodup) (h : e ∈ others) :
    e ∈ (d.overlay others).entries := by
  induction others generalizing d with
  | nil => cases h
  | cons f others ih =>
    rw [List.map_cons, List.nodup_cons] at hnodup
    rw [overlay_cons]
    rcases List.mem_cons.1 h with rfl | h
    · have hself : e ∈ (d.insert e.1 e.2).entries := mem_putVersion_self e.1 e.2 d.entries
      exact mem_overlay_of_notMem hself hnodup.1
    · exact ih hnodup.2 h

/-- Others that are there already change nothing. -/
theorem overlay_eq_self (h : ∀ e ∈ others, e ∈ d.entries) : d.overlay others = d := by
  induction others with
  | nil => rfl
  | cons f others ih =>
    have hf : d.insert f.1 f.2 = d := by
      ext1
      exact putVersion_eq_self d.nodup (h f List.mem_cons_self)
    rw [overlay_cons, hf]
    exact ih fun e he => h e (List.mem_cons_of_mem _ he)

/-- Dependencies laid over others twice are laid over them once. -/
theorem overlay_overlay (d extra : Dependencies) :
    (d.overlay extra.entries).overlay extra.entries = d.overlay extra.entries :=
  overlay_eq_self fun _ he => mem_overlay extra.nodup he

/-! ## Dependencies put together -/

/-- Others with new names come after the entries that are there. -/
theorem entries_overlay (h : ((d.entries ++ others).map (·.1)).Nodup) :
    (d.overlay others).entries = d.entries ++ others := by
  induction others generalizing d with
  | nil => exact (List.append_nil _).symm
  | cons f others ih =>
    have hnew : f.1 ∉ d.entries.map (·.1) := by
      intro hmem
      rw [List.map_append, List.map_cons, List.nodup_append] at h
      exact h.2.2 f.1 hmem f.1 List.mem_cons_self rfl
    have hinsert : (d.insert f.1 f.2).entries = d.entries ++ [f] := putVersion_of_notMem hnew
    have happend : d.entries ++ f :: others = (d.insert f.1 f.2).entries ++ others := by
      rw [hinsert, List.append_assoc, List.singleton_append]
    rw [happend] at h ⊢
    exact ih h

/-- Dependencies put together from their own entries are the same. -/
theorem ofList_entries (d : Dependencies) : ofList d.entries = d := by
  ext1
  exact entries_overlay d.nodup

/-- The last of some entries is given its version after the others. -/
theorem entries_ofList_append (entries : List (Text × Text)) (e : Text × Text) :
    (ofList (entries ++ [e])).entries = putVersion e.1 e.2 (ofList entries).entries := by
  rw [ofList, overlay, List.foldl_append]
  rfl

/-- The names are those of the entries, in the order in which they first come. -/
theorem names_ofList (entries : List (Text × Text)) :
    (ofList entries).entries.map (·.1) = (entries.map (·.1)).eraseDups := by
  induction entries using List.reverseRecOn with
  | nil => rfl
  | append_singleton entries e ih =>
    have hmem : e.1 ∈ (ofList entries).entries.map (·.1) ↔ e.1 ∈ entries.map (·.1) := by
      rw [ih, List.mem_eraseDups]
    rw [entries_ofList_append, List.map_append, List.eraseDups_append, ← ih, List.map_cons,
      List.map_nil, List.removeAll]
    by_cases hthere : e.1 ∈ entries.map (·.1)
    · rw [names_putVersion_of_mem (hmem.2 hthere), List.filter_cons_of_neg (by simpa using hthere),
        List.filter_nil, List.eraseDups_nil, List.append_nil]
    · rw [putVersion_of_notMem (mt hmem.1 hthere), List.filter_cons_of_pos (by simpa using hthere),
        List.map_append]
      rfl

/-- Each name has the version it came with last. -/
theorem find?_reverse_of_mem_ofList (h : e ∈ (ofList entries).entries) :
    entries.reverse.find? (·.1 = e.1) = some e := by
  induction entries using List.reverseRecOn with
  | nil => cases h
  | append_singleton entries f ih =>
    rw [entries_ofList_append] at h
    rw [List.reverse_append, List.reverse_singleton, List.singleton_append]
    rcases mem_putVersion (ofList entries).nodup h with rfl | ⟨hname, hmem⟩
    · exact List.find?_cons_of_pos (by simp)
    · rw [List.find?_cons_of_neg (by simpa using Ne.symm hname), ih hmem]

end Dependencies

end InterfacePackage
