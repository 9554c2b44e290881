import InterfacePackage.Proofs.FileTree.Build

/-!
# A directory filled

A directory is settled when a path denotes it and no links are below it. What is written, copied or
made under paths that go on from that path by names then lands below the directory, and the
directory stays settled. Main statements: `denotes_into`, `write_into`, `copy_into` and
`makeDirectories_fills`.
-/

namespace InterfacePackage

/-- An absolute path that goes on from another one by names. -/
structure Path.IsInto (dir path : Path) (names : List Name) : Prop where
  absolute : path.isAbsolute = true
  route : path.route = dir.route ++ names.map .into

/-- The path above one that goes on by names goes on by all of them but the last. -/
theorem Path.IsInto.parent {dir path above : Path} {names : List Name} (h : IsInto dir path names)
    (hnames : names ≠ []) (habove : path.parent = some above) :
    IsInto dir above names.dropLast := by
  obtain ⟨habs, c, hpieces⟩ := Path.parent_spec h.absolute habove
  refine ⟨habs, ?_⟩
  obtain ⟨front, last, rfl⟩ := (List.eq_nil_or_concat names).resolve_left hnames
  have hroute : above.route ++ [Step.ofComponent c]
      = dir.route ++ front.map .into ++ [.into last] := by
    have hpath := h.route
    rw [Path.route, hpieces, List.map_append, List.concat_eq_append, List.map_append,
      ← List.append_assoc] at hpath
    exact hpath
  rw [List.concat_eq_append, List.dropLast_concat]
  exact (List.append_inj' hroute rfl).1

namespace FileTree

variable {t t' t'' : FileTree} {dir path : Path} {here q : Place} {e : Entry} {names : List Name}

/-! ## Settled directories -/

/-- A path denotes a directory below which there are no links. -/
structure Settled (t : FileTree) (dir : Path) (here : Place) : Prop where
  proper : t.IsProper
  absolute : dir.isAbsolute = true
  denotes : t.Denotes dir here
  directory : t.entryAt here = some .directory
  linkless : ∀ q, isBelow here q = true → ¬ IsLink (t.entryAt q)

/-- A path that goes on by names leads down by these names. -/
theorem Settled.denotes_into (h : Settled t dir here) (hpath : dir.IsInto path names)
    (hq : t.Denotes path q) : q = here ++ names := by
  obtain ⟨left, hback⟩ := Reaches.append h.denotes h.directory
  rw [Denotes, hpath.route, startOf_of_isAbsolute t hpath.absolute,
    ← startOf_of_isAbsolute t h.absolute] at hq
  exact ((hback _ _).1 hq).names h.linkless

/-- Every change lies below the directory, and no directory or link is lost or appears as a link. -/
structure Fills (t : FileTree) (here : Place) (t' : FileTree) : Prop where
  proper : t'.IsProper
  start : t'.start = t.start
  entry : ∀ q, t'.entryAt q = t.entryAt q ∨ isBelow here q = true ∧
    (t.entryAt q ≠ some .directory ∧ ¬ IsLink (t.entryAt q)) ∧
      t'.entryAt q ≠ none ∧ ¬ IsLink (t'.entryAt q)

namespace Fills

theorem refl (ht : t.IsProper) (here : Place) : Fills t here t := ⟨ht, rfl, fun _ => .inl rfl⟩

theorem trans (h : Fills t here t') (h' : Fills t' here t'') : Fills t here t'' where
  proper := h'.proper
  start := h'.start.trans h.start
  entry q := by
    rcases h.entry q with hsame | ⟨hbelow, hold, -, -⟩
    · rw [← hsame]
      exact h'.entry q
    · rcases h'.entry q with hsame' | ⟨-, -, hnew'⟩
      · rw [hsame']
        exact h.entry q
      · exact .inr ⟨hbelow, hold, hnew'⟩

/-- All directories and links stay. -/
theorem carries (h : Fills t here t') : Carries t t' where
  directory p hp := by
    rcases h.entry p with hsame | ⟨-, ⟨hold, -⟩, -⟩
    · rw [hsame, hp]
    · exact absurd hp hold
  link p target hp := by
    rcases h.entry p with hsame | ⟨-, ⟨-, hold⟩, -⟩
    · rw [hsame, hp]
    · exact absurd ⟨target, hp⟩ hold

theorem entryAt_eq (h : Fills t here t') (hq : ¬ isBelow here q = true) :
    t'.entryAt q = t.entryAt q :=
  (h.entry q).resolve_right fun hchanged => hq hchanged.1

end Fills

/-- A directory that is filled stays settled. -/
theorem Settled.fills (h : Settled t dir here) (h' : Fills t here t') : Settled t' dir here where
  proper := h'.proper
  absolute := h.absolute
  denotes := h.denotes.mono h'.start h'.carries h.directory
  directory := h'.carries.directory here h.directory
  linkless q hq := by
    rcases h'.entry q with hsame | ⟨-, -, -, hnew⟩
    · rw [hsame]
      exact h.linkless q hq
    · exact hnew

/-- An entry put below the directory that is no link fills it. -/
theorem Puts.fills (h : Puts t q e t') (ht : t.IsProper) (hq : isBelow here q = true)
    (he : ¬ IsLink (some e)) : Fills t here t' where
  proper := h.proper ht
  start := h.start
  entry p := by
    by_cases hp : p = q
    · subst hp
      refine .inr ⟨hq, ⟨h.not_directory, ?_⟩, ?_, ?_⟩
      · rintro ⟨target, hlink⟩
        rcases h.old with hold | ⟨content, hold⟩ <;> rw [hold] at hlink <;> cases hlink
      · simp [h.entryAt_self]
      · rwa [h.entryAt_self]
    · exact .inl (h.entryAt_of_ne hp)

theorem not_isLink_file (content : Bytes) : ¬ IsLink (some (.file content)) := by
  rintro ⟨target, hlink⟩
  cases hlink

/-! ## Changes under paths into the directory -/

/-- A file written under such a path. -/
theorem Settled.write_into (h : Settled t dir here) (hpath : dir.IsInto path names)
    {content : Bytes} (hwrite : t.write path content = .ok t') :
    Puts t (here ++ names) (.file content) t' := by
  obtain ⟨q, hq, hputs⟩ := write_spec h.proper.sound hpath.absolute hwrite
  rwa [h.denotes_into hpath hq] at hputs

/-- A file copied to such a path. -/
theorem Settled.copy_into (h : Settled t dir here) (hpath : dir.IsInto path names) {source : Path}
    (hcopy : t.copy source path = .ok t') :
    ∃ there content, t.lookup source = .ok (there, .file content) ∧
      Puts t (here ++ names) (.file (if here ++ names = there then [] else content)) t' := by
  obtain ⟨there, content, q, hlookup, hq, hputs⟩ := copy_spec h.proper.sound hpath.absolute hcopy
  rw [h.denotes_into hpath hq] at hputs
  exact ⟨there, content, hlookup, hputs⟩

/-- The path that is copied to leads into the directory. -/
theorem Settled.place_of_copy (h : Settled t dir here) (hpath : dir.IsInto path names)
    {source : Path} (hcopy : t.copy source path = .ok t') : t.place path = .ok (here ++ names) := by
  obtain ⟨-, -, q, -, hplace, -, -⟩ := copy_ok hcopy
  rw [hplace, h.denotes_into hpath (denotes_of_place h.proper.sound hplace)]

/-- A file written under such a path fills the directory. -/
theorem Settled.write_fills (h : Settled t dir here) (hpath : dir.IsInto path names)
    (hnames : names ≠ []) {content : Bytes} (hwrite : t.write path content = .ok t') :
    Fills t here t' :=
  (h.write_into hpath hwrite).fills h.proper (isBelow_append here hnames) (not_isLink_file _)

/-- What is new where a path into the directory leads, or one above it, is a directory below. -/
theorem Settled.builds_below (h : Settled t dir here) (hpath : dir.IsInto path names)
    (hbuilds : Builds t path t') (hnone : t.entryAt q = none) (hway : OnWay t' path q) :
    ∃ front back, names = front ++ back ∧ front ≠ [] ∧ q = here ++ front := by
  obtain ⟨above, habove, hlookup⟩ := hway
  obtain ⟨habs, back, hpieces⟩ := Path.pieces_of_mem_ancestors hpath.absolute habove
  obtain ⟨hdenotes, hdirectory, -⟩ := denotes_of_lookup hbuilds.proper.sound hlookup
  have hroute : above.route ++ back.map Step.ofComponent = dir.route ++ names.map .into := by
    rw [← hpath.route, Path.route, Path.route, hpieces, List.map_append]
  rcases List.append_eq_append_iff.1 hroute with ⟨rest, hdir, -⟩ | ⟨rest, hrest, hnames⟩
  · -- the path leads no further than the directory, where everything stood before
    exfalso
    obtain ⟨middle, hmiddle, hexists⟩ : ∃ middle, t.Denotes above middle ∧
        t.entryAt middle = some .directory := by
      have hthrough := h.denotes
      rw [Denotes, hdir] at hthrough
      rw [startOf_of_isAbsolute t h.absolute] at hthrough
      by_cases hnil : rest = []
      · subst hnil
        rw [List.append_nil] at hthrough
        refine ⟨here, ?_, h.directory⟩
        rwa [Denotes, startOf_of_isAbsolute t habs]
      · obtain ⟨middle, hfront, hmiddle⟩ := hthrough.split hnil
        refine ⟨middle, ?_, hmiddle⟩
        rwa [Denotes, startOf_of_isAbsolute t habs]
    have hsame := Denotes.unique hbuilds.proper.sound hdenotes
      (hmiddle.mono hbuilds.start hbuilds.carries hexists)
    rw [hsame, hexists] at hnone
    cases hnone
  · -- it leads on from the directory by some of the names
    obtain ⟨front, last, hsplit, hfront, -⟩ := List.map_eq_append_iff.1 hnames
    have hinto : dir.IsInto above front := ⟨habs, by rw [hrest, hfront]⟩
    have hsettled : Settled t' dir here := by
      refine ⟨hbuilds.proper, h.absolute, h.denotes.mono hbuilds.start hbuilds.carries h.directory,
        hbuilds.carries.directory here h.directory, fun r hr => ?_⟩
      rcases hbuilds.entry r with hsame | ⟨-, hnew, -⟩
      · rw [hsame]
        exact h.linkless r hr
      · simp [IsLink, hnew]
    have hq := hsettled.denotes_into hinto hdenotes
    refine ⟨front, last, hsplit, ?_, hq⟩
    rintro rfl
    rw [hq, List.append_nil, h.directory] at hnone
    cases hnone

/-- Missing directories made along such a path fill the directory. -/
theorem Settled.makeDirectories_fills (h : Settled t dir here) (hpath : dir.IsInto path names) :
    Fills t here (outcome (makeDirectories path) t).2 := by
  have hbuilds := makeDirectories_builds h.proper path
  refine ⟨hbuilds.proper, hbuilds.start, fun q => ?_⟩
  rcases hbuilds.entry q with hsame | ⟨hnone, hnew, hway⟩
  · exact .inl hsame
  · obtain ⟨front, -, -, hfront, rfl⟩ := h.builds_below hpath hbuilds hnone hway
    refine .inr ⟨isBelow_append here hfront, ?_, ?_, ?_⟩
    · simp [IsLink, hnone]
    · simp [hnew]
    · simp [IsLink, hnew]

end FileTree

end InterfacePackage
