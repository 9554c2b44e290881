import InterfacePackage.Proofs.FileTree.Fill
import InterfacePackage.Proofs.FileTree.Lexical
import InterfacePackage.Proofs.FileTree.Strip

/-!
# A directory that grows

A file that is laid down below a settled directory brings with it the directories between the two
and changes nothing else, and where nothing stood before all that could be read can still be read.
Main statements: `Settled.paves_parent`, `Lays.grows`, `Grows.read` and `Settled.lays_copy`.
-/

namespace InterfacePackage.FileTree

variable {t t' t'' : FileTree} {dir path above source : Path} {here p q : Place} {e : Entry}
  {names : List Name} {content : Bytes}

/-! ## Trees without links -/

/-- Filling a directory brings no links. -/
theorem Fills.isLinkless (h : Fills t here t') (hlinks : t.IsLinkless) : t'.IsLinkless := by
  intro q
  rcases h.entry q with hsame | ⟨-, -, -, hnew⟩
  · rw [hsame]
    exact hlinks q
  · exact hnew

theorem Strips.isLinkless (h : Strips t here t') (hlinks : t.IsLinkless) : t'.IsLinkless := by
  rintro q ⟨target, hq⟩
  exact hlinks q ⟨target, h.old hq⟩

/-- Building directories brings no links. -/
theorem Builds.isLinkless (h : Builds t path t') (hlinks : t.IsLinkless) : t'.IsLinkless := by
  intro q
  rcases h.entry q with hsame | ⟨-, hnew, -⟩
  · rw [hsame]
    exact hlinks q
  · simp [IsLink, hnew]

/-- Putting something else than a link brings no links. -/
theorem Puts.isLinkless (h : Puts t q e t') (hlinks : t.IsLinkless) (he : ¬ IsLink (some e)) :
    t'.IsLinkless := by
  intro p
  by_cases hp : p = q
  · rwa [hp, h.entryAt_self]
  · rw [h.entryAt_of_ne hp]
    exact hlinks p

/-- What stands where a file or a directory was found is found when a directory has been filled. -/
theorem Fills.lookup (h : Fills t here t') (ht : t.IsProper) (hlinks : t.IsLinkless) {e' : Entry}
    (hlookup : t.lookup path = .ok (q, e)) (hq : t'.entryAt q = some e') :
    t'.lookup path = .ok (q, e') :=
  lookup_mono ht.sound h.proper.sound h.start h.carries hlookup hq (hq ▸ h.isLinkless hlinks q)

/-- A file is found where something was found when a directory has been filled. -/
theorem Fills.lookup_file (h : Fills t here t') (ht : t.IsProper)
    (hlookup : t.lookup path = .ok (q, e)) (hq : t'.entryAt q = some (.file content)) :
    t'.lookup path = .ok (q, .file content) :=
  lookup_mono ht.sound h.proper.sound h.start h.carries hlookup hq (not_isLink_file content)

/-- Names lead straight down by their spelling. -/
theorem foldl_move_names (here : Place) (ns : List Name) :
    (ns.map .into).foldl Step.move here = here ++ ns := by
  induction ns generalizing here with
  | nil => simp
  | cons n ns ih =>
    rw [List.map_cons, List.foldl_cons, ih, Step.move, List.append_assoc, List.singleton_append]

/-- Without links a path that goes on by names from another denotes what stands under these names
where the other leads by its spelling. -/
theorem Denotes.eq_append (hlinks : t.IsLinkless) (hpath : dir.IsInto path names)
    (hq : t.Denotes path q) : q = dir.route.foldl Step.move [] ++ names := by
  rw [Reaches.place_eq hlinks hq, startOf_of_isAbsolute t hpath.absolute, hpath.route,
    List.foldl_append, foldl_move_names]

/-! ## Reading -/

/-- A file is read where it is found. -/
theorem read_eq_ok_iff :
    t.read path = .ok content ↔ ∃ q, t.lookup path = .ok (q, .file content) := by
  unfold FileTree.read
  cases hlookup : t.lookup path with
  | error fault => exact ⟨nofun, nofun⟩
  | ok found =>
    obtain ⟨q, e⟩ := found
    constructor
    · intro h
      cases e with
      | file content' =>
        cases h
        exact ⟨q, rfl⟩
      | directory => cases h
      | link target => cases h
    · rintro ⟨q', hfound⟩
      cases hfound
      rfl

/-- A file of text is read where it is found. -/
theorem readText_eq_ok_iff {text : Text} : t.readText path = .ok text ↔
    ∃ q content, t.lookup path = .ok (q, .file content) ∧ Utf8.decode content = some text := by
  unfold FileTree.readText
  cases hread : t.read path with
  | error fault =>
    refine ⟨nofun, ?_⟩
    rintro ⟨q, content, hlookup, -⟩
    rw [read_eq_ok_iff.2 ⟨q, hlookup⟩] at hread
    cases hread
  | ok content =>
    obtain ⟨q, hlookup⟩ := read_eq_ok_iff.1 hread
    constructor
    · intro h
      cases hdecode : Utf8.decode content with
      | none =>
        simp only [bind, Except.bind, hdecode] at h
        cases h
      | some text' =>
        simp only [bind, Except.bind, hdecode] at h
        cases h
        exact ⟨q, content, hlookup, hdecode⟩
    · rintro ⟨q', content', hlookup', hdecode⟩
      rw [hlookup] at hlookup'
      cases hlookup'
      simp only [bind, Except.bind, hdecode]

/-! ## Growth -/

/-- All that was there is still there and unchanged, and what is new lies below a place. -/
structure Grows (t : FileTree) (here : Place) (t' : FileTree) : Prop where
  fills : Fills t here t'
  old : ∀ q e, t.entryAt q = some e → t'.entryAt q = some e

namespace Grows

theorem refl (ht : t.IsProper) (here : Place) : Grows t here t := ⟨.refl ht here, fun _ _ h => h⟩

theorem trans (h : Grows t here t') (h' : Grows t' here t'') : Grows t here t'' :=
  ⟨h.fills.trans h'.fills, fun q e hq => h'.old q e (h.old q e hq)⟩

variable (h : Grows t here t') (ht : t.IsProper) (hlinks : t.IsLinkless)

include h ht hlinks

/-- A path finds what it found. -/
theorem lookup (hlookup : t.lookup path = .ok (q, e)) : t'.lookup path = .ok (q, e) := by
  obtain ⟨-, hentry, -⟩ := denotes_of_lookup ht.sound hlookup
  exact h.fills.lookup ht hlinks hlookup (h.old q e hentry)

/-- A file is read as before. -/
theorem read (hread : t.read path = .ok content) : t'.read path = .ok content := by
  rw [read_eq_ok_iff] at hread ⊢
  obtain ⟨q, hlookup⟩ := hread
  exact ⟨q, h.lookup ht hlinks hlookup⟩

/-- A file of text is read as before. -/
theorem readText {text : Text} (hread : t.readText path = .ok text) :
    t'.readText path = .ok text := by
  rw [readText_eq_ok_iff] at hread ⊢
  obtain ⟨q, content, hlookup, hdecode⟩ := hread
  exact ⟨q, content, h.lookup ht hlinks hlookup, hdecode⟩

end Grows

/-- All that was there except at one place is still there and unchanged, and what is new lies below
a place. -/
structure GrowsBut (t : FileTree) (here except : Place) (t' : FileTree) : Prop where
  fills : Fills t here t'
  old : ∀ q e, q ≠ except → t.entryAt q = some e → t'.entryAt q = some e

namespace GrowsBut

/-- A path that finds something elsewhere still finds it. -/
theorem lookup {except : Place} (h : GrowsBut t here except t') (ht : t.IsProper)
    (hlinks : t.IsLinkless) (hlookup : t.lookup path = .ok (q, e)) (hq : q ≠ except) :
    t'.lookup path = .ok (q, e) := by
  obtain ⟨-, hentry, -⟩ := denotes_of_lookup ht.sound hlookup
  exact h.fills.lookup ht hlinks hlookup (h.old q e hq hentry)

end GrowsBut

/-! ## Files laid down -/

/-- Missing directories between two places are made, and nothing else changes. -/
structure Paves (t : FileTree) (here target : Place) (t' : FileTree) : Prop where
  fills : Fills t here t'
  entry : ∀ p, t'.entryAt p = t.entryAt p ∨ (isBelow here p = true ∧ isBelow p target = true) ∧
    t.entryAt p = none ∧ t'.entryAt p = some .directory

/-- A file is put at a place below another, with the directories between them, and nothing else
changes. -/
structure Lays (t : FileTree) (here target : Place) (content : Bytes) (t' : FileTree) : Prop where
  fills : Fills t here t'
  vacant : t.entryAt target = none ∨ IsFile (t.entryAt target)
  self : t'.entryAt target = some (.file content)
  entry : ∀ p, p ≠ target → t'.entryAt p = t.entryAt p ∨
    (isBelow here p = true ∧ isBelow p target = true) ∧ t.entryAt p = none ∧
      t'.entryAt p = some .directory

theorem Paves.refl (ht : t.IsProper) (here target : Place) : Paves t here target t :=
  ⟨.refl ht here, fun _ => .inl rfl⟩

/-- Making the directory above a path into a settled directory paves the way to it. -/
theorem Settled.paves_parent (h : Settled t dir here) (hpath : dir.IsInto path names)
    (hnames : names ≠ []) (habove : path.parent = some above) :
    Paves t here (here ++ names) (outcome (makeDirectories above) t).2 := by
  have hinto := hpath.parent hnames habove
  refine ⟨h.makeDirectories_fills hinto, fun p => ?_⟩
  have hbuilds := makeDirectories_builds h.proper above
  rcases hbuilds.entry p with hsame | ⟨hnone, hnew, hway⟩
  · exact .inl hsame
  · obtain ⟨front, back, hsplit, hfront, rfl⟩ := h.builds_below hinto hbuilds hnone hway
    obtain ⟨last, hlast⟩ : ∃ last, names = names.dropLast ++ [last] :=
      ⟨_, (List.dropLast_concat_getLast hnames).symm⟩
    refine .inr ⟨⟨isBelow_append here hfront, ?_⟩, hnone, hnew⟩
    rw [hlast, hsplit, List.append_assoc, ← List.append_assoc]
    exact isBelow_append _ (by simp)

/-- What is there when the way has been paved, and is no directory, was there before. -/
theorem Paves.entryAt_eq (h : Paves t here q t') (hp : t'.entryAt p ≠ some .directory) :
    t.entryAt p = t'.entryAt p := by
  rcases h.entry p with hsame | ⟨-, -, hnew⟩
  · exact hsame.symm
  · exact absurd hnew hp

/-- A file put where the way has been paved is laid down. -/
theorem Paves.lays (h : Paves t here q t') (hq : isBelow here q = true)
    (hputs : Puts t' q (.file content) t'') : Lays t here q content t'' where
  fills := h.fills.trans (hputs.fills h.fills.proper hq (not_isLink_file content))
  vacant := by
    rw [h.entryAt_eq hputs.not_directory]
    exact hputs.old
  self := hputs.entryAt_self
  entry p hp := by
    rw [hputs.entryAt_of_ne hp]
    exact h.entry p

namespace Lays

/-- What stood elsewhere still stands there. -/
theorem old (h : Lays t here q content t') (hp : p ≠ q) (hentry : t.entryAt p = some e) :
    t'.entryAt p = some e := by
  rcases h.entry p hp with hsame | ⟨-, hnone, -⟩
  · rw [hsame, hentry]
  · rw [hnone] at hentry
    cases hentry

/-- No other file is laid down. -/
theorem isFile_of_ne (h : Lays t here q content t') (hp : p ≠ q) (hfile : IsFile (t'.entryAt p)) :
    IsFile (t.entryAt p) := by
  rcases h.entry p hp with hsame | ⟨-, -, hmade⟩
  · rwa [hsame] at hfile
  · -- what is made on the way is a directory
    obtain ⟨bytes, hbytes⟩ := hfile
    rw [hmade] at hbytes
    cases hbytes

/-- A file is found where it was, and it has changed only if it is the one that is laid down. -/
theorem lookup_file (h : Lays t here q content t') (ht : t.IsProper) {bytes : Bytes}
    (hlookup : t.lookup path = .ok (p, .file bytes)) :
    t'.lookup path = .ok (p, .file (if p = q then content else bytes)) := by
  refine h.fills.lookup_file ht hlookup ?_
  by_cases hp : p = q
  · rw [if_pos hp, hp, h.self]
  · rw [if_neg hp, h.old hp (denotes_of_lookup ht.sound hlookup).2.1]

/-- A file laid down where nothing was leaves all that was there. -/
theorem grows (h : Lays t here q content t') (hnone : t.entryAt q = none) : Grows t here t' where
  fills := h.fills
  old p e hentry := by
    refine h.old ?_ hentry
    rintro rfl
    rw [hnone] at hentry
    cases hentry

end Lays

/-- A file copied into a settled directory is laid down there. What is then found under the path of
the source, and under the one of the target, is what was copied, also if the file was copied onto
itself. -/
theorem Settled.lays_copy (h : Settled t dir here) (hpath : dir.IsInto path names)
    (hcopy : t.copy source path = .ok t') :
    ∃ there bytes content, t.lookup source = .ok (there, .file bytes) ∧
      Puts t (here ++ names) (.file content) t' ∧ t'.lookup source = .ok (there, .file content) ∧
      t'.lookup path = .ok (here ++ names, .file content) := by
  obtain ⟨there, bytes, hlookup, hputs⟩ := h.copy_into hpath hcopy
  have hproper := hputs.proper h.proper
  refine ⟨there, bytes, _, hlookup, hputs, ?_, ?_⟩
  · refine lookup_mono h.proper.sound hproper.sound hputs.start hputs.carries hlookup ?_
      (not_isLink_file _)
    by_cases hsame : here ++ names = there
    · rw [if_pos hsame, ← hsame, hputs.entryAt_self, if_pos hsame]
    · obtain ⟨-, hentry, -⟩ := denotes_of_lookup h.proper.sound hlookup
      rw [if_neg hsame, hputs.entryAt_of_ne (Ne.symm hsame), hentry]
  · exact lookup_of_place h.proper.sound hproper.sound hputs.start hputs.carries
      (h.place_of_copy hpath hcopy) hputs.entryAt_self (not_isLink_file _)

/-- A file written under a path into a settled directory is found there. -/
theorem Settled.lookup_of_write (h : Settled t dir here) (hpath : dir.IsInto path names)
    (hwrite : t.write path content = .ok t') :
    t'.lookup path = .ok (here ++ names, .file content) := by
  have hputs := h.write_into hpath hwrite
  obtain ⟨q, hplace, -, -⟩ := write_ok hwrite
  rw [h.denotes_into hpath (denotes_of_place h.proper.sound hplace)] at hplace
  exact lookup_of_place h.proper.sound (hputs.proper h.proper).sound hputs.start hputs.carries
    hplace hputs.entryAt_self (not_isLink_file content)

/-- A file put where there was nothing, or the same, leaves all that was there. -/
theorem Puts.grows (h : Puts t q (.file content) t') (ht : t.IsProper)
    (hq : isBelow here q = true) (hsame : ∀ e, t.entryAt q = some e → e = .file content) :
    Grows t here t' where
  fills := h.fills ht hq (not_isLink_file content)
  old p e hp := by
    by_cases hpq : p = q
    · subst hpq
      rw [h.entryAt_self, hsame e hp]
    · rw [h.entryAt_of_ne hpq, hp]

/-- A way that is paved leaves all that was there. -/
theorem Paves.grows (h : Paves t here q t') : Grows t here t' where
  fills := h.fills
  old p e hp := by
    rcases h.entry p with hsame | ⟨-, hnone, -⟩
    · rw [hsame, hp]
    · rw [hnone] at hp
      cases hp

end InterfacePackage.FileTree
