import InterfacePackage.Proofs.FileTree.Into

/-!
# Entries of a directory removed

Removing what a directory holds takes away things below that directory and nothing else. A path that
goes on to a name may come to mean something else as links on its way are removed, but never
another directory. Main statements: `removeFile_strips` and `removeDirectory_strips`.
-/

namespace InterfacePackage.FileTree

variable {t t' t'' : FileTree} {here p q : Place} {e : Entry} {dir : Path} {n : Text}

/-! ## Less below a directory -/

/-- The second tree is the first without some of what is below a place. -/
structure Strips (t : FileTree) (here : Place) (t' : FileTree) : Prop where
  proper : t'.IsProper
  start : t'.start = t.start
  entry : ∀ q, t'.entryAt q = t.entryAt q ∨ isBelow here q = true ∧ t'.entryAt q = none

namespace Strips

theorem refl (ht : t.IsProper) (here : Place) : Strips t here t := ⟨ht, rfl, fun _ => .inl rfl⟩

theorem trans (h : Strips t here t') (h' : Strips t' here t'') : Strips t here t'' where
  proper := h'.proper
  start := h'.start.trans h.start
  entry q := by
    rcases h'.entry q with hsame' | hgone'
    · rw [hsame']
      exact h.entry q
    · exact .inr hgone'

/-- What is left was there before. -/
theorem old (h : Strips t here t') (hp : t'.entryAt p = some e) : t.entryAt p = some e := by
  rcases h.entry p with hsame | ⟨-, hgone⟩
  · rw [← hsame, hp]
  · rw [hgone] at hp
    cases hp

/-- What was not there is not left. -/
theorem none_of_none (h : Strips t here t') (hp : t.entryAt p = none) : t'.entryAt p = none := by
  rcases h.entry p with hsame | ⟨-, hgone⟩
  · rw [hsame, hp]
  · exact hgone

theorem carries (h : Strips t here t') : Carries t' t :=
  ⟨fun _ hp => h.old hp, fun _ _ hp => h.old hp⟩

theorem entryAt_eq (h : Strips t here t') (hq : ¬ isBelow here q = true) :
    t'.entryAt q = t.entryAt q :=
  (h.entry q).resolve_right fun hgone => hq hgone.1

/-- What a path that denotes a directory denotes then, it denoted before. -/
theorem denotes (h : Strips t here t') (hpath : t'.Denotes dir q)
    (hq : t'.entryAt q = some .directory) : t.Denotes dir q :=
  hpath.mono h.start.symm h.carries hq

end Strips

/-- A place below which everything is cleared away loses nothing else. -/
theorem strips_clear (ht : t.IsProper) (hbelow : isBelow here q = true) :
    Strips t here (t.clear q) := by
  refine ⟨ht.clear q, clear_start t q, fun r => ?_⟩
  rw [entryAt_clear]
  split
  · rename_i hr
    exact .inr ⟨isBelow_trans hbelow hr, rfl⟩
  · exact .inl rfl

/-- An entry that holds nothing is erased alone. -/
theorem strips_erase (ht : t.IsProper) (hbelow : isBelow here q = true)
    (hempty : ∀ r, isBelow q r = true → t.entryAt r = none) : Strips t here (t.erase q) := by
  have hq : q ≠ [] := by
    rintro rfl
    rw [isBelow_root] at hbelow
    cases hbelow
  refine ⟨ht.erase hq hempty, erase_start t q, fun r => ?_⟩
  rw [entryAt_erase t hq]
  split
  · rename_i hr
    subst hr
    exact .inr ⟨hbelow, rfl⟩
  · exact .inl rfl

/-! ## One entry removed -/

/-- The entry of a name is gone with all below it, or an empty directory is left of it that the path
no longer leads to. -/
structure Cleared (t : FileTree) (dir : Path) (here : Place) (n : Name) : Prop where
  below : ∀ q, isBelow (here ++ [n]) q = true → t.entryAt q = none
  self : t.entryAt (here ++ [n]) = none ∨
    t.entryAt (here ++ [n]) = some .directory ∧ ¬ t.Denotes dir here

/-- An entry that holds nothing is cleared when it is erased. -/
theorem cleared_erase (dir : Path) {n : Name}
    (hempty : ∀ r, isBelow (here ++ [n]) r = true → t.entryAt r = none) :
    Cleared (t.erase (here ++ [n])) dir here n where
  below r hr := by
    rw [entryAt_erase t (by simp)]
    split
    · rfl
    · exact hempty r hr
  self := by
    rw [entryAt_erase t (by simp), if_pos rfl]
    exact .inl rfl

/-- What is cleared stays so when more is removed. -/
theorem Cleared.mono {n : Name} (h : Cleared t dir here n) (hstrips : Strips t here t')
    (hhere : t'.entryAt here = some .directory) : Cleared t' dir here n where
  below q hq := hstrips.none_of_none (h.below q hq)
  self := by
    rcases h.self with hnone | ⟨hleft, hlost⟩
    · exact .inl (hstrips.none_of_none hnone)
    · rcases hstrips.entry (here ++ [n]) with hsame | ⟨-, hgone⟩
      · exact .inr ⟨hsame.trans hleft, fun hpath => hlost (hstrips.denotes hpath hhere)⟩
      · exact .inl hgone

section

variable (ht : t.IsProper) (hdir : dir ≠ []) (hn : IsNormal n)
variable (hhere : ∀ place, t.Denotes dir place → t.entryAt place = some .directory → place = here)

include ht hdir hn hhere

/-- A file or a link removed from a directory is gone, and nothing else is. -/
theorem removeFile_strips (hremove : t.removeFile (dir.join n) = .ok t') :
    Strips t here t' ∧ Cleared t' dir here (Utf8.encode n) := by
  unfold removeFile at hremove
  cases hlookup : t.lookupLink (dir.join n) with
  | error fault =>
    rw [hlookup] at hremove
    cases hremove
  | ok found =>
    obtain ⟨q, e⟩ := found
    obtain ⟨place, ⟨-, hplace, hdirectory⟩, -, rfl, hentry⟩ :=
      (lookupLink_join_eq_ok_iff ht.sound hdir hn).1 hlookup
    rw [hhere place hplace hdirectory] at hlookup hentry
    simp only [hlookup, bind, Except.bind] at hremove
    -- removing succeeded, so this is no directory
    have hfile : t.entryAt (here ++ [Utf8.encode n]) ≠ some .directory := by
      rintro hsome
      rw [hentry] at hsome
      cases hsome
      cases hremove
    have hempty : ∀ r, isBelow (here ++ [Utf8.encode n]) r = true → t.entryAt r = none :=
      fun r hr => ht.sound.none_below hfile hr
    have herased : t' = t.erase (here ++ [Utf8.encode n]) := by
      cases e with
      | directory => cases hremove
      | file content =>
        cases hremove
        rfl
      | link target =>
        cases hremove
        rfl
    subst herased
    exact ⟨strips_erase ht (isBelow_append here (by simp)) hempty, cleared_erase dir hempty⟩

/-- A directory with nothing in it is removed, unless its path no longer leads there. -/
theorem removeEmptied_strips {result : Except Fault Unit} (hvet : vet (dir.join n) = .ok ())
    (hlength : (Utf8.encode n).length ≤ nameLimit) (hdirectory : t.entryAt here = some .directory)
    (hself : t.entryAt (here ++ [Utf8.encode n]) = some .directory)
    (hempty : ∀ r, isBelow (here ++ [Utf8.encode n]) r = true → t.entryAt r = none)
    (hremove : outcome (change (·.removeEmptied (dir.join n))) t = (result, t')) :
    Strips t here t' ∧ Cleared t' dir here (Utf8.encode n) := by
  rw [outcome_change] at hremove
  unfold removeEmptied at hremove
  cases hlookup : t.lookupLink (dir.join n) with
  | ok found =>
    obtain ⟨q, e⟩ := found
    obtain ⟨place, ⟨-, hplace, hdirectory'⟩, -, rfl, hentry⟩ :=
      (lookupLink_join_eq_ok_iff ht.sound hdir hn).1 hlookup
    rw [hhere place hplace hdirectory'] at hlookup hentry
    rw [hself] at hentry
    cases hentry
    rw [hlookup] at hremove
    cases hremove
    exact ⟨strips_erase ht (isBelow_append here (by simp)) hempty, cleared_erase dir hempty⟩
  | error fault =>
    -- the path led through a link that is gone by now, so the empty directory stays
    have hlost : ¬ t.Denotes dir here := fun hpath => by
      have hfound := (lookupLink_join_eq_ok_iff ht.sound hdir hn).2
        ⟨here, ⟨hvet, hpath, hdirectory⟩, hlength, rfl, hself⟩
      rw [hlookup] at hfound
      cases hfound
    rw [hlookup] at hremove
    have htree : t' = t := by
      cases fault <;> cases hremove <;> rfl
    subst htree
    exact ⟨.refl ht here, hempty, .inr ⟨hself, hlost⟩⟩

/-- A directory removed from a directory takes with it what is below it, and nothing else. -/
theorem removeDirectory_strips {result : Except Fault Unit}
    (hremove : outcome (removeDirectory (dir.join n)) t = (result, t')) :
    Strips t here t' ∧ (result = .ok () → Cleared t' dir here (Utf8.encode n)) := by
  rw [removeDirectory, outcome_bind, outcome_get] at hremove
  dsimp only at hremove
  have hbelow : isBelow here (here ++ [Utf8.encode n]) = true := isBelow_append here (by simp)
  cases hlookup : t.lookupLink (dir.join n) with
  | error fault =>
    rw [hlookup] at hremove
    cases hremove
    exact ⟨.refl ht here, fun h => by cases h⟩
  | ok found =>
    obtain ⟨q, e⟩ := found
    obtain ⟨place, ⟨hvet, hplace, hdirectory⟩, hlength, rfl, hentry⟩ :=
      (lookupLink_join_eq_ok_iff ht.sound hdir hn).1 hlookup
    have hsame := hhere place hplace hdirectory
    subst hsame
    rw [hlookup] at hremove
    cases e with
    | file content =>
      cases hremove
      exact ⟨.refl ht place, fun h => by cases h⟩
    | link target =>
      have hempty : ∀ r, isBelow (place ++ [Utf8.encode n]) r = true → t.entryAt r = none :=
        fun r hr => ht.sound.none_below (by simp [hentry]) hr
      cases hremove
      exact ⟨strips_erase ht hbelow hempty, fun _ => cleared_erase dir hempty⟩
    | directory =>
      -- the directory is emptied first, and then looked up again under its path
      have hcleared := strips_clear ht hbelow
      have hempty : ∀ r, isBelow (place ++ [Utf8.encode n]) r = true →
          (t.clear (place ++ [Utf8.encode n])).entryAt r = none := fun r hr => by
        rw [entryAt_clear, if_pos hr]
      have hself : (t.clear (place ++ [Utf8.encode n])).entryAt (place ++ [Utf8.encode n])
          = some .directory := by
        rw [entryAt_clear, isBelow_self, if_neg Bool.false_ne_true, hentry]
      have hplace' : (t.clear (place ++ [Utf8.encode n])).entryAt place = some .directory := by
        rw [hcleared.entryAt_eq (by simp), hdirectory]
      have hhere' : ∀ other, (t.clear (place ++ [Utf8.encode n])).Denotes dir other →
          (t.clear (place ++ [Utf8.encode n])).entryAt other = some .directory → other = place :=
        fun other hpath hother => hhere other (hcleared.denotes hpath hother) (hcleared.old hother)
      dsimp only at hremove
      rw [outcome_bind, outcome_modify] at hremove
      obtain ⟨hstrips, hgone⟩ := removeEmptied_strips hcleared.proper hdir hn hhere' hvet hlength
        hplace' hself hempty hremove
      exact ⟨hcleared.trans hstrips, fun _ => hgone⟩

end

end InterfacePackage.FileTree
