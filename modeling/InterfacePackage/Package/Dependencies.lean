import InterfacePackage.Text.Basic

/-!
# Dependencies

Package names with the versions that are wanted, each name once, in the order in which they first
came. A name given again takes the new version and keeps its place.
-/

namespace InterfacePackage

/-- The entry of a name given the version, or added at the end. -/
def putVersion (name version : Text) : List (Text × Text) → List (Text × Text)
  | [] => [(name, version)]
  | (n, v) :: rest =>
    if n = name then (n, version) :: rest else (n, v) :: putVersion name version rest

/-- A name is among those of a changed list when it was before or is the one given. -/
theorem mem_names_putVersion {name version n : Text} {entries : List (Text × Text)} :
    n ∈ (putVersion name version entries).map (·.1) ↔ n = name ∨ n ∈ entries.map (·.1) := by
  induction entries with
  | nil => simp [putVersion]
  | cons e rest ih =>
    obtain ⟨m, v⟩ := e
    by_cases hm : m = name
    · simp only [putVersion, if_pos hm, List.map_cons, List.mem_cons]
      constructor
      · rintro (h | h)
        · exact .inl (h.trans hm)
        · exact .inr (.inr h)
      · rintro (h | h | h)
        · exact .inl (h.trans hm.symm)
        · exact .inl h
        · exact .inr h
    · simp only [putVersion, if_neg hm, List.map_cons, List.mem_cons, ih]
      constructor
      · rintro (h | h | h)
        · exact .inr (.inl h)
        · exact .inl h
        · exact .inr (.inr h)
      · rintro (h | h | h)
        · exact .inr (.inl h)
        · exact .inl h
        · exact .inr (.inr h)

/-- No name is repeated by a change. -/
theorem nodup_names_putVersion {name version : Text} {entries : List (Text × Text)}
    (h : (entries.map (·.1)).Nodup) : ((putVersion name version entries).map (·.1)).Nodup := by
  induction entries with
  | nil => simp [putVersion]
  | cons e rest ih =>
    obtain ⟨m, v⟩ := e
    rw [List.map_cons, List.nodup_cons] at h
    by_cases hm : m = name
    · simpa [putVersion, if_pos hm] using h
    · simp only [putVersion, if_neg hm, List.map_cons, List.nodup_cons]
      exact ⟨fun hmem => (mem_names_putVersion.1 hmem).elim hm h.1, ih h.2⟩

/-- Versions of packages by name. -/
structure Dependencies where
  /-- The names with their versions, in order. -/
  entries : List (Text × Text)
  /-- No name comes twice. -/
  nodup : (entries.map (·.1)).Nodup
deriving DecidableEq

namespace Dependencies

/-- No dependencies. -/
def empty : Dependencies := ⟨[], List.nodup_nil⟩

/-- A name given a version. -/
def insert (d : Dependencies) (name version : Text) : Dependencies :=
  ⟨putVersion name version d.entries, nodup_names_putVersion d.nodup⟩

/-- Dependencies with others laid over them, one after the other. -/
def overlay (d : Dependencies) (others : List (Text × Text)) : Dependencies :=
  others.foldl (fun d (name, version) => d.insert name version) d

/-- Dependencies from entries in which a name may come twice. -/
def ofList (entries : List (Text × Text)) : Dependencies := empty.overlay entries

end Dependencies

end InterfacePackage
