import InterfacePackage.Package.Manifest
import InterfacePackage.Proofs.Package.Dependencies

/-!
# The dependencies of an assembled manifest

Laying others over dependencies keeps the names that are there in their places and puts the new ones
behind them; a name that both have takes the version of the others. Where names come twice among the
others, laying them over is laying over what they are put together to. Main statements:
`names_overlay`, `mem_overlay_iff`, `overlay_ofList` and `assemble_overlays`.
-/

namespace InterfacePackage

variable {n m v w : Text} {entries : List (Text × Text)}

/-! ## Two names given a version -/

/-- Of two versions given to a name the second counts. -/
theorem putVersion_putVersion (n v w : Text) (entries : List (Text × Text)) :
    putVersion n v (putVersion n w entries) = putVersion n v entries := by
  induction entries with
  | nil => exact if_pos rfl
  | cons e entries ih =>
    obtain ⟨k, u⟩ := e
    rw [putVersion, putVersion]
    by_cases hk : k = n
    · rw [if_pos hk, if_pos hk, putVersion, if_pos hk]
    · rw [if_neg hk, if_neg hk, putVersion, if_neg hk, ih]

/-- A name that is there is given its version before or after another one. -/
theorem putVersion_comm (hn : n ∈ entries.map (·.1)) (hne : m ≠ n) (v w : Text) :
    putVersion m w (putVersion n v entries) = putVersion n v (putVersion m w entries) := by
  induction entries with
  | nil => cases hn
  | cons e entries ih =>
    obtain ⟨k, u⟩ := e
    rw [putVersion, putVersion]
    by_cases hk : k = n
    · have hm : ¬ k = m := fun h => hne (h.symm.trans hk)
      rw [if_pos hk, if_neg hm, putVersion, if_neg hm, putVersion, if_pos hk]
    · -- the name is not the first one, so it is among the rest
      have hrest : n ∈ entries.map (·.1) := (List.mem_cons.1 hn).resolve_left (Ne.symm hk)
      rw [if_neg hk]
      by_cases hm : k = m
      · rw [if_pos hm, putVersion, if_pos hm, putVersion, if_neg hk]
      · rw [if_neg hm, putVersion, if_neg hm, putVersion, if_neg hk, ih hrest]

namespace Dependencies

variable {d : Dependencies} {others : List (Text × Text)} {e : Text × Text}

/-- The names, in order. -/
def names (d : Dependencies) : List Text := d.entries.map (·.1)

/-- A name that is there keeps its place, and a new one comes last. -/
theorem names_insert (d : Dependencies) (n v : Text) :
    (d.insert n v).names = if n ∈ d.names then d.names else d.names ++ [n] := by
  change (putVersion n v d.entries).map (·.1) = _
  by_cases h : n ∈ d.names
  · rw [if_pos h]
    exact names_putVersion_of_mem h
  · rw [if_neg h, putVersion_of_notMem h, List.map_append]
    rfl

/-- Others laid over one after the other. -/
theorem overlay_append (d : Dependencies) (others more : List (Text × Text)) :
    d.overlay (others ++ more) = (d.overlay others).overlay more :=
  List.foldl_append

/-! ## Names and versions -/

/-- The names that are there are followed by those among the others that are not. -/
theorem names_overlay (hnodup : (others.map (·.1)).Nodup) (d : Dependencies) :
    (d.overlay others).names = d.names ++ (others.map (·.1)).filter (· ∉ d.names) := by
  induction others generalizing d with
  | nil => exact (List.append_nil _).symm
  | cons f others ih =>
    rw [List.map_cons, List.nodup_cons] at hnodup
    rw [overlay_cons, ih hnodup.2, names_insert, List.map_cons]
    by_cases hf : f.1 ∈ d.names
    · rw [if_pos hf, List.filter_cons_of_neg (by simpa using hf)]
    · rw [if_neg hf]
      -- a name that has just been added is not among the rest of the others
      have hrest : (others.map (·.1)).filter (· ∉ d.names ++ [f.1])
          = (others.map (·.1)).filter (· ∉ d.names) := by
        refine List.filter_congr fun n hn => ?_
        have hne : n ≠ f.1 := fun h => hnodup.1 (h ▸ hn)
        simp [hne]
      rw [hrest, List.filter_cons_of_pos (by simpa using hf), List.append_assoc,
        List.singleton_append]

/-- What is there afterwards is laid over, or was there under a name that the others do not have. -/
theorem mem_overlay_iff (hnodup : (others.map (·.1)).Nodup) :
    e ∈ (d.overlay others).entries ↔ e ∈ others ∨ e.1 ∉ others.map (·.1) ∧ e ∈ d.entries := by
  constructor
  · intro h
    induction others generalizing d with
    | nil => exact .inr ⟨List.not_mem_nil, h⟩
    | cons f others ih =>
      rw [List.map_cons, List.nodup_cons] at hnodup
      rw [overlay_cons] at h
      rcases ih hnodup.2 h with hmem | ⟨hnew, hmem⟩
      · exact .inl (List.mem_cons_of_mem _ hmem)
      · rcases mem_putVersion d.nodup hmem with heq | ⟨hne, hold⟩
        · exact .inl (heq ▸ List.mem_cons_self)
        · exact .inr ⟨fun hname => (List.mem_cons.1 hname).elim hne hnew, hold⟩
  · rintro (h | ⟨hname, h⟩)
    · exact mem_overlay hnodup h
    · exact mem_overlay_of_notMem h hname

/-! ## Others in which a name comes twice -/

/-- A name that is there, and not among the others, is given its version before or after them. -/
theorem insert_overlay (hn : n ∈ d.names) (hothers : n ∉ others.map (·.1)) (v : Text) :
    (d.overlay others).insert n v = (d.insert n v).overlay others := by
  induction others generalizing d with
  | nil => rfl
  | cons f others ih =>
    rw [List.map_cons, List.mem_cons, not_or] at hothers
    have hthere : n ∈ (d.insert f.1 f.2).names := mem_names_putVersion.2 (.inr hn)
    have hswap : (d.insert f.1 f.2).insert n v = (d.insert n v).insert f.1 f.2 := by
      ext1
      exact (putVersion_comm hn (Ne.symm hothers.1) v f.2).symm
    rw [overlay_cons, overlay_cons, ih hthere hothers.2, hswap]

/-- A name given its version among the others is given it after them. -/
theorem overlay_putVersion (hnodup : (others.map (·.1)).Nodup) (d : Dependencies) (n v : Text) :
    d.overlay (putVersion n v others) = (d.overlay others).insert n v := by
  induction others generalizing d with
  | nil => rfl
  | cons f others ih =>
    obtain ⟨k, u⟩ := f
    rw [List.map_cons, List.nodup_cons] at hnodup
    rw [putVersion]
    by_cases hk : k = n
    · subst hk
      have hthere : k ∈ (d.insert k u).names := mem_names_putVersion.2 (.inl rfl)
      have htwice : (d.insert k u).insert k v = d.insert k v := by
        ext1
        exact putVersion_putVersion k v u d.entries
      rw [if_pos rfl, overlay_cons, overlay_cons, insert_overlay hthere hnodup.1, htwice]
    · rw [if_neg hk, overlay_cons, overlay_cons, ih hnodup.2]

/-- Others may be put together before they are laid over. -/
theorem overlay_ofList (d : Dependencies) (others : List (Text × Text)) :
    d.overlay (ofList others).entries = d.overlay others := by
  induction others using List.reverseRecOn with
  | nil => rfl
  | append_singleton others e ih =>
    rw [entries_ofList_append, overlay_putVersion (ofList others).nodup, ih, overlay_append]
    rfl

/-- Entries laid over others are put together with them. -/
theorem ofList_overlay (entries others : List (Text × Text)) :
    (ofList entries).overlay (ofList others).entries = ofList (entries ++ others) := by
  rw [overlay_ofList, ofList, ofList, overlay_append]

example : (ofList [("a", "1"), ("b", "2")]).overlay [("c", "3"), ("a", "4"), ("c", "5")]
    = ofList [("a", "4"), ("b", "2"), ("c", "5")] := by decide

end Dependencies

/-! ## Assembled manifests -/

/-- The dependencies of an assembled manifest lose and repeat nothing. No name comes twice; the
project's names stand in the project's order, and those configured ones that the project lacks come
after them in the configured order; a configured name has the configured version and every other one
the project's; and what is configured, laid over once more, changes nothing. This holds whatever
names come twice where the two were read: the result is put together from the project's entries and
the configured ones behind them, so that each name has its first place and its last version. -/
theorem PackageManifest.assemble_overlays (p : ProjectManifest) (c : Config) :
    (assemble p c).dependencies.names.Nodup ∧
      (assemble p c).dependencies.names
        = p.dependencies.names ++ c.extraDependencies.names.filter (· ∉ p.dependencies.names) ∧
      (∀ name version, (name, version) ∈ (assemble p c).dependencies.entries ↔
        if name ∈ c.extraDependencies.names then (name, version) ∈ c.extraDependencies.entries
        else (name, version) ∈ p.dependencies.entries) ∧
      assemble { p with dependencies := (assemble p c).dependencies } c = assemble p c ∧
      ∀ entries extra, (assemble { p with dependencies := .ofList entries }
          { c with extraDependencies := .ofList extra }).dependencies
        = .ofList (entries ++ extra) := by
  have hnodup : (c.extraDependencies.entries.map (·.1)).Nodup := c.extraDependencies.nodup
  refine ⟨(assemble p c).dependencies.nodup,
    Dependencies.names_overlay hnodup p.dependencies, ?_, ?_, Dependencies.ofList_overlay⟩
  · intro name version
    refine (Dependencies.mem_overlay_iff hnodup).trans ?_
    split
    · rename_i hname
      exact ⟨fun h => h.resolve_right fun hother => hother.1 hname, .inl⟩
    · rename_i hname
      have hother : (name, version) ∉ c.extraDependencies.entries :=
        fun h => hname (List.mem_map_of_mem (f := (·.1)) h)
      exact ⟨fun h => (h.resolve_left hother).2, fun h => .inr ⟨hname, h⟩⟩
  · have htwice := p.dependencies.overlay_overlay c.extraDependencies
    unfold assemble
    rw [htwice]

end InterfacePackage
