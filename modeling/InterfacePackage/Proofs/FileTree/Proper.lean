import InterfacePackage.FileTree.Resolve
import InterfacePackage.Proofs.FileTree.Entries
import InterfacePackage.Proofs.Path.Components
import InterfacePackage.Proofs.Text.Utf8

/-!
# Proper trees

A tree is proper when everything in it has a name and stands in a directory, as it is on a machine.
Every change that an export makes keeps it so. Main statements: `isName_encode_iff` (names and
normal names correspond), `mem_below_iff` and `mem_names_iff` (what a listing holds),
`IsProper.put`, `IsProper.clear` and `IsProper.erase`.
-/

namespace InterfacePackage

/-- A name that an entry may have. -/
def IsName (n : Name) : Prop := n ≠ [] ∧ n ≠ [0x2E] ∧ n ≠ [0x2E, 0x2E] ∧ 0x2F ∉ n

instance (n : Name) : Decidable (IsName n) := inferInstanceAs (Decidable (_ ∧ _))

/-- A text is written as a name exactly if it is a normal name. -/
theorem isName_encode_iff {n : Text} : IsName (Utf8.encode n) ↔ IsNormal n := by
  have hdot : Utf8.encode n = [0x2E] ↔ n = ['.'] :=
    ⟨fun h => Utf8.encode_injective h, fun h => h ▸ rfl⟩
  have hdots : Utf8.encode n = [0x2E, 0x2E] ↔ n = ['.', '.'] :=
    ⟨fun h => Utf8.encode_injective h, fun h => h ▸ rfl⟩
  unfold IsName IsNormal
  rw [Ne, Ne, Ne, Utf8.encode_eq_nil_iff, hdot, hdots, Utf8.slash_mem_encode_iff]

/-- A name that is text is a normal name. -/
theorem IsName.decode {n : Name} {text : Text} (h : IsName n) (htext : Utf8.decode n = some text) :
    IsNormal text := by
  rw [← Utf8.encode_of_decode htext] at h
  exact isName_encode_iff.1 h

namespace FileTree

variable {t : FileTree} {p q : Place} {n : Name} {e : Entry}

/-! ## Listings -/

/-- What a tree lists below a place is what stands there. -/
theorem mem_below_iff : (q, e) ∈ t.below p ↔ isBelow p q = true ∧ t.entryAt q = some e := by
  rw [below, toList, List.mem_filter, Std.ExtTreeMap.mem_toList_iff_getElem?_eq_some]
  constructor
  · rintro ⟨hentry, hbelow⟩
    refine ⟨hbelow, ?_⟩
    obtain ⟨m, rest, rfl⟩ := isBelow_iff.1 hbelow
    rw [entryAt, if_neg (by simp)]
    exact hentry
  · rintro ⟨hbelow, hentry⟩
    refine ⟨?_, hbelow⟩
    obtain ⟨m, rest, rfl⟩ := isBelow_iff.1 hbelow
    rwa [entryAt, if_neg (by simp)] at hentry

/-- No place is listed twice. -/
theorem pairwise_below (t : FileTree) (p : Place) : (t.below p).Pairwise fun x y => x.1 ≠ y.1 := by
  refine List.Pairwise.filter _ ?_
  refine Std.ExtTreeMap.distinct_keys_toList.imp fun hne heq => hne ?_
  rw [heq]
  exact Std.ReflCmp.compare_self

/-- The names in a directory are those under which something stands in it. -/
theorem mem_names_iff : n ∈ t.names p ↔ t.entryAt (p ++ [n]) ≠ none := by
  rw [names, List.mem_filterMap]
  constructor
  · rintro ⟨⟨q, e⟩, hmem, hname⟩
    obtain ⟨-, hentry⟩ := mem_below_iff.1 hmem
    dsimp only at hname
    split at hname
    · rename_i hq
      obtain ⟨front, rfl⟩ := List.getLast?_eq_some_iff.1 hname
      rw [List.dropLast_concat] at hq
      subst hq
      simp [hentry]
    · cases hname
  · intro hsome
    obtain ⟨e, hentry⟩ := Option.ne_none_iff_exists'.1 hsome
    refine ⟨(p ++ [n], e), mem_below_iff.2 ⟨isBelow_append p (by simp), hentry⟩, ?_⟩
    simp

/-! ## Trees as they are on a machine -/

/-- Everything has a name and stands in a directory. -/
structure IsProper (t : FileTree) : Prop where
  sound : t.IsSound
  named : ∀ p n, t.entryAt (p ++ [n]) ≠ none → IsName n

/-- A tree is proper when all that it lists has a name and stands in a directory. -/
theorem isProper_iff : t.IsProper ↔ ∀ x ∈ t.below [],
    t.entryAt x.1.dropLast = some .directory ∧ IsName (x.1.getLast?.getD []) := by
  constructor
  · rintro h ⟨q, e⟩ hmem
    obtain ⟨hbelow, hentry⟩ := mem_below_iff.1 hmem
    have hne : q ≠ [] := by
      rintro rfl
      simp at hbelow
    obtain ⟨above, n, rfl⟩ := (List.eq_nil_or_concat q).resolve_left hne
    rw [List.concat_eq_append] at hentry ⊢
    rw [List.dropLast_concat, List.getLast?_concat]
    have hsome : t.entryAt (above ++ [n]) ≠ none := by simp [hentry]
    exact ⟨h.sound above n hsome, h.named above n hsome⟩
  · intro h
    have hlisted : ∀ p n, t.entryAt (p ++ [n]) ≠ none →
        t.entryAt p = some .directory ∧ IsName n := fun p n hsome => by
      obtain ⟨e, hentry⟩ := Option.ne_none_iff_exists'.1 hsome
      have hlast := h (p ++ [n], e) (mem_below_iff.2 ⟨isBelow_append [] (by simp), hentry⟩)
      rwa [List.dropLast_concat, List.getLast?_concat] at hlast
    exact ⟨fun p n hsome => (hlisted p n hsome).1, fun p n hsome => (hlisted p n hsome).2⟩

instance (t : FileTree) : Decidable t.IsProper := decidable_of_iff _ isProper_iff.symm

/-- Nothing stands below what is no directory. -/
theorem IsSound.none_below (h : t.IsSound) (hp : t.entryAt p ≠ some .directory)
    (hq : isBelow p q = true) : t.entryAt q = none := by
  obtain ⟨n, rest, rfl⟩ := isBelow_iff.1 hq
  refine Classical.byContradiction fun hsome => ?_
  have habove : t.entryAt p = some .directory := by
    rcases List.eq_nil_or_concat rest with rfl | ⟨rest, last, rfl⟩
    · exact h p n hsome
    · refine h.above (q := n :: rest) (h _ last ?_)
      rw [List.append_assoc, List.cons_append, ← List.concat_eq_append]
      exact hsome
  exact hp habove

/-- Where a name has nothing, nothing is found by going on from it either. -/
theorem IsSound.none_beyond (h : t.IsSound) (hn : t.entryAt (p ++ [n]) = none) (rest : List Name) :
    t.entryAt (p ++ n :: rest) = none := by
  rw [List.append_cons]
  cases rest with
  | nil => rwa [List.append_nil]
  | cons m rest => exact h.none_below (by simp [hn]) (isBelow_append _ (List.cons_ne_nil m rest))

/-- A directory has no names exactly if nothing stands below it. -/
theorem names_eq_nil_iff (h : t.IsSound) :
    t.names p = [] ↔ ∀ q, isBelow p q = true → t.entryAt q = none := by
  constructor
  · intro hnil q hq
    obtain ⟨n, rest, rfl⟩ := isBelow_iff.1 hq
    refine h.none_beyond (Classical.byContradiction fun hsome => ?_) rest
    have hn := mem_names_iff.2 hsome
    rw [hnil] at hn
    cases hn
  · intro hnone
    refine List.eq_nil_iff_forall_not_mem.2 fun n hn => mem_names_iff.1 hn ?_
    exact hnone _ (isBelow_append p (List.cons_ne_nil n []))

/-- What stands below the root stands in a directory. -/
theorem IsSound.exists_parent (h : t.IsSound) (hp : p ≠ []) (hsome : t.entryAt p ≠ none) :
    ∃ above n, p = above ++ [n] ∧ t.entryAt above = some .directory := by
  obtain ⟨above, n, rfl⟩ := (List.eq_nil_or_concat p).resolve_left hp
  rw [List.concat_eq_append] at hsome
  exact ⟨above, n, List.concat_eq_append, h above n hsome⟩

/-- A tree stays proper when a named entry is put into a directory, unless it takes the place of
one that may hold something. -/
theorem IsProper.put (h : t.IsProper) (hp : t.entryAt p = some .directory) (hn : IsName n)
    (hold : t.entryAt (p ++ [n]) ≠ some .directory) : (t.put (p ++ [n]) e).IsProper where
  sound q m hsome := by
    have hkept : t.entryAt q = some .directory →
        (t.put (p ++ [n]) e).entryAt q = some .directory := by
      intro hq
      rw [entryAt_put_of_ne t e, hq]
      rintro rfl
      exact hold hq
    by_cases hq : q ++ [m] = p ++ [n]
    · obtain ⟨rfl, -⟩ := List.append_inj' hq rfl
      exact hkept hp
    · rw [entryAt_put_of_ne t e hq] at hsome
      exact hkept (h.sound q m hsome)
  named q m hsome := by
    by_cases hq : q ++ [m] = p ++ [n]
    · obtain ⟨-, hm⟩ := List.append_inj' hq rfl
      rw [List.singleton_inj.1 hm]
      exact hn
    · rw [entryAt_put_of_ne t e hq] at hsome
      exact h.named q m hsome

/-- A tree stays proper when all below a place is cleared away. -/
theorem IsProper.clear (h : t.IsProper) (p : Place) : (t.clear p).IsProper where
  sound q m hsome := by
    rw [entryAt_clear] at hsome ⊢
    split at hsome
    · exact absurd rfl hsome
    · rename_i hbelow
      rw [if_neg fun hq => hbelow (isBelow_snoc.2 (.inr hq))]
      exact h.sound q m hsome
  named q m hsome := by
    rw [entryAt_clear] at hsome
    split at hsome
    · exact absurd rfl hsome
    · exact h.named q m hsome

/-- A tree stays proper when something is erased that holds nothing. -/
theorem IsProper.erase (h : t.IsProper) (hp : p ≠ [])
    (hempty : ∀ q, isBelow p q = true → t.entryAt q = none) : (t.erase p).IsProper where
  sound q m hsome := by
    rw [entryAt_erase t hp] at hsome ⊢
    split at hsome
    · exact absurd rfl hsome
    · rw [if_neg]
      · exact h.sound q m hsome
      · rintro rfl
        exact hsome (hempty _ (isBelow_append q (by simp)))
  named q m hsome := by
    rw [entryAt_erase t hp] at hsome
    split at hsome
    · exact absurd rfl hsome
    · exact h.named q m hsome

end FileTree

end InterfacePackage
