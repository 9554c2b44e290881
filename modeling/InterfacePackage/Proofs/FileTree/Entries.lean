import InterfacePackage.FileTree.Stride

/-!
# Entries after a change

What stands at a place after an entry is put, erased or cleared away, which names a directory has,
and that the changes an export makes keep a tree sound.
-/

namespace InterfacePackage.FileTree

variable {t : FileTree} {p q : Place} {e : Entry}

/-! ## Places below a place -/

/-- A place is below another when at least one name leads on from there. -/
theorem isBelow_iff : isBelow p q = true ↔ ∃ n rest, q = p ++ n :: rest := by
  rw [isBelow, Bool.and_eq_true, decide_eq_true_eq, List.isPrefixOf_iff_prefix]
  constructor
  · rintro ⟨⟨rest, rfl⟩, hne⟩
    cases rest with
    | nil => exact absurd (List.append_nil p).symm hne
    | cons n rest => exact ⟨n, rest, rfl⟩
  · rintro ⟨n, rest, rfl⟩
    exact ⟨List.prefix_append _ _, by simp⟩

/-- What is reached by further names is below. -/
theorem isBelow_append (p : Place) {ns : List Name} (h : ns ≠ []) :
    isBelow p (p ++ ns) = true := by
  cases ns with
  | nil => exact absurd rfl h
  | cons n rest => exact isBelow_iff.2 ⟨n, rest, rfl⟩

@[simp] theorem isBelow_self (p : Place) : isBelow p p = false := by simp [isBelow]

/-- What starts with the names of a place is that place or below it. -/
theorem prefix_iff : p <+: q ↔ p = q ∨ isBelow p q = true := by
  rw [isBelow, Bool.and_eq_true, decide_eq_true_eq, List.isPrefixOf_iff_prefix]
  constructor
  · intro h
    by_cases hsame : p = q
    · exact .inl hsame
    · exact .inr ⟨h, hsame⟩
  · rintro (rfl | h)
    · exact List.prefix_refl _
    · exact h.1

/-- Nothing is above the root. -/
@[simp] theorem isBelow_root (p : Place) : isBelow p [] = false := by
  rw [Bool.eq_false_iff]
  intro h
  obtain ⟨n, rest, h⟩ := isBelow_iff.1 h
  simp at h

/-- What is below a place below is below. -/
theorem isBelow_trans {r : Place} (hpq : isBelow p q = true) (hqr : isBelow q r = true) :
    isBelow p r = true := by
  obtain ⟨n, ns, rfl⟩ := isBelow_iff.1 hpq
  obtain ⟨m, ms, rfl⟩ := isBelow_iff.1 hqr
  rw [List.append_assoc]
  exact isBelow_append p (by simp)

/-- A place right below one below another is below that other, and the other way round unless it
lies right in it. -/
theorem isBelow_snoc {n : Name} : isBelow p (q ++ [n]) = true ↔ p = q ∨ isBelow p q = true := by
  constructor
  · intro h
    obtain ⟨m, rest, h⟩ := isBelow_iff.1 h
    rcases List.eq_nil_or_concat rest with rfl | ⟨rest, last, rfl⟩
    · obtain ⟨hp, -⟩ := List.append_inj' h rfl
      exact .inl hp.symm
    · rw [List.concat_eq_append, ← List.cons_append, ← List.append_assoc] at h
      obtain ⟨hq, -⟩ := List.append_inj' h rfl
      exact .inr (isBelow_iff.2 ⟨m, rest, hq⟩)
  · rintro (rfl | h)
    · exact isBelow_append p (by simp)
    · exact isBelow_trans h (isBelow_append q (by simp))

/-- Nothing is between a place and what stands right below it. -/
theorem not_isBelow_snoc {n : Name} (h : isBelow q p = true) : ¬ isBelow p (q ++ [n]) = true := by
  intro hbelow
  rcases isBelow_snoc.1 hbelow with rfl | hbelow
  · simp at h
  · have hself := isBelow_trans h hbelow
    simp at hself

/-! ## Single changes -/

@[simp] theorem entryAt_root (t : FileTree) : t.entryAt [] = some .directory := rfl

/-- What stands somewhere after an entry is put. -/
theorem entryAt_put (t : FileTree) (hp : p ≠ []) (e : Entry) (q : Place) :
    (t.put p e).entryAt q = if q = p then some e else t.entryAt q := by
  unfold entryAt put
  by_cases hq : q = []
  · subst hq
    rw [if_pos rfl, if_neg (Ne.symm hp), if_pos rfl]
  · simp only [if_neg hq, Std.ExtTreeMap.getElem?_insert, Std.LawfulEqCmp.compare_eq_iff_eq]
    simp only [eq_comm]

theorem entryAt_put_self (t : FileTree) (hp : p ≠ []) (e : Entry) :
    (t.put p e).entryAt p = some e := by
  rw [entryAt_put t hp, if_pos rfl]

/-- A put entry has no part in what stands elsewhere. -/
theorem entryAt_put_of_ne (t : FileTree) (e : Entry) (h : q ≠ p) :
    (t.put p e).entryAt q = t.entryAt q := by
  unfold entryAt put
  by_cases hq : q = []
  · rw [if_pos hq, if_pos hq]
  · rw [if_neg hq, if_neg hq, Std.ExtTreeMap.getElem?_insert, if_neg]
    simpa using Ne.symm h

/-- What stands somewhere after an entry is erased. -/
theorem entryAt_erase (t : FileTree) (hp : p ≠ []) (q : Place) :
    (t.erase p).entryAt q = if q = p then none else t.entryAt q := by
  unfold entryAt erase
  by_cases hq : q = []
  · subst hq
    rw [if_pos rfl, if_neg (Ne.symm hp), if_pos rfl]
  · simp only [if_neg hq, Std.ExtTreeMap.getElem?_erase, Std.LawfulEqCmp.compare_eq_iff_eq]
    simp only [eq_comm]

/-- Nothing changes at the root when all below a place is cleared away. -/
theorem root_clear (t : FileTree) (p : Place) :
    (t.clear p).entries[([] : Place)]? = t.entries[([] : Place)]? := by
  rw [clear, Std.ExtTreeMap.getElem?_filter']
  cases t.entries[([] : Place)]? <;> simp

/-- What stands somewhere after all below a place is cleared away. -/
theorem entryAt_clear (t : FileTree) (p q : Place) :
    (t.clear p).entryAt q = if isBelow p q = true then none else t.entryAt q := by
  unfold entryAt clear
  by_cases hq : q = []
  · subst hq
    rw [if_pos rfl, isBelow_root, if_neg Bool.false_ne_true, if_pos rfl]
  · simp only [if_neg hq, Std.ExtTreeMap.getElem?_filter']
    cases t.entries[q]? with
    | none => simp
    | some e => cases isBelow p q <;> simp

@[simp] theorem put_start (t : FileTree) (p : Place) (e : Entry) : (t.put p e).start = t.start :=
  rfl

@[simp] theorem erase_start (t : FileTree) (p : Place) : (t.erase p).start = t.start := rfl

@[simp] theorem clear_start (t : FileTree) (p : Place) : (t.clear p).start = t.start := rfl

end InterfacePackage.FileTree
