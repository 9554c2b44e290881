import InterfacePackage.Proofs.FileTree.Agree
import InterfacePackage.Proofs.FileTree.Strip

/-!
# A directory emptied

Removing every entry of a directory with all that is below it leaves the same tree as clearing the
directory. Main statements: `removeAll_names` and, on a directory that its path leads to however
little is left below it, `Stands.lookupLink_join`.
-/

namespace InterfacePackage.FileTree

variable {t t' : FileTree} {dir : Path} {here p q : Place} {e : Entry} {n : Name}

/-! ## Entries removed -/

/-- The tree without what stands at a place and all below it. -/
def prune (t : FileTree) (p : Place) : FileTree := (t.clear p).erase p

/-- The tree without the entries of some names in a directory. -/
def removeAll (t : FileTree) (here : Place) (ns : List Name) : FileTree :=
  ns.foldl (fun t n => t.prune (here ++ [n])) t

/-- What stands somewhere after a place is pruned. -/
theorem entryAt_prune (t : FileTree) (hp : p ≠ []) (q : Place) :
    (t.prune p).entryAt q = if p <+: q then none else t.entryAt q := by
  rw [prune, entryAt_erase _ hp, entryAt_clear]
  by_cases hsame : q = p
  · rw [if_pos hsame, if_pos (prefix_iff.2 (.inl hsame.symm))]
  · by_cases hbelow : isBelow p q = true
    · rw [if_neg hsame, if_pos hbelow, if_pos (prefix_iff.2 (.inr hbelow))]
    · rw [if_neg hsame, if_neg hbelow,
        if_neg fun h => (prefix_iff.1 h).elim (fun h => hsame h.symm) hbelow]

/-- Pruning a place below a directory strips that directory. -/
theorem strips_prune (ht : t.IsProper) (hq : isBelow here q = true) :
    Strips t here (t.prune q) := by
  have hempty : ∀ r, isBelow q r = true → (t.clear q).entryAt r = none := by
    intro r hr
    rw [entryAt_clear, if_pos hr]
  exact (strips_clear ht hq).trans (strips_erase (ht.clear q) hq hempty)

/-- Where nothing is below a place, clearing it changes nothing. -/
theorem clear_of_none_below (h : ∀ r, isBelow p r = true → t.entryAt r = none) :
    t.clear p = t := by
  refine ext_entryAt (root_clear t p) (fun q => ?_) rfl
  rw [entryAt_clear]
  split
  · rename_i hq
    exact (h q hq).symm
  · rfl

/-- What is put below a place is gone when that is cleared. -/
theorem clear_put (t : FileTree) (e : Entry) (hq : isBelow p q = true) :
    (t.put q e).clear p = t.clear p := by
  have hq' : q ≠ [] := by
    rintro rfl
    simp at hq
  refine ext_entryAt ?_ (fun r => ?_) rfl
  · rw [root_clear, root_clear, put, Std.ExtTreeMap.getElem?_insert, if_neg]
    exact fun hsame => hq' (Std.LawfulEqCmp.eq_of_compare hsame)
  · rw [entryAt_clear, entryAt_clear]
    by_cases hr : r = q
    · rw [hr, if_pos hq, if_pos hq]
    · rw [entryAt_put_of_ne t e hr]

/-- What is no directory is pruned by erasing it. -/
theorem prune_of_other (ht : t.IsSound) (hp : t.entryAt p ≠ some .directory) :
    t.prune p = t.erase p := by
  rw [prune, clear_of_none_below fun r hr => ht.none_below hp hr]

/-- What stands somewhere after the entries of some names are removed. -/
theorem entryAt_removeAll (t : FileTree) (here : Place) (ns : List Name) (q : Place) :
    (t.removeAll here ns).entryAt q
      = if ∃ n ∈ ns, here ++ [n] <+: q then none else t.entryAt q := by
  induction ns generalizing t with
  | nil => simp [removeAll]
  | cons n ns ih =>
    change ((t.prune (here ++ [n])).removeAll here ns).entryAt q = _
    rw [ih, entryAt_prune t (by simp)]
    by_cases hrest : ∃ m ∈ ns, here ++ [m] <+: q
    · have hall : ∃ m ∈ n :: ns, here ++ [m] <+: q := by
        obtain ⟨m, hm, hq⟩ := hrest
        exact ⟨m, List.mem_cons_of_mem _ hm, hq⟩
      rw [if_pos hrest, if_pos hall]
    · have hall : (∃ m ∈ n :: ns, here ++ [m] <+: q) ↔ here ++ [n] <+: q := by
        simp only [List.mem_cons, exists_eq_or_imp, hrest, or_false]
      rw [if_neg hrest]
      simp only [hall]

/-- No name is listed twice. -/
theorem nodup_names (t : FileTree) (p : Place) : (t.names p).Nodup := by
  refine List.Pairwise.filterMap _ (fun x y hne n hn m hm hsame => hne ?_) (pairwise_below t p)
  -- two places right in a directory that end in the same name are the same
  have hplace : ∀ (q : Place) (n : Name),
      (if q.dropLast = p then q.getLast? else none) = some n → q = p ++ [n] := by
    intro q n hq
    split at hq
    · rename_i hp
      obtain ⟨front, rfl⟩ := List.getLast?_eq_some_iff.1 hq
      rw [List.dropLast_concat] at hp
      rw [hp]
    · cases hq
  rw [hplace x.1 n hn, hplace y.1 m hm, hsame]

/-- A directory is empty once all its entries are removed. -/
theorem removeAll_names (ht : t.IsSound) (here : Place) :
    t.removeAll here (t.names here) = t.clear here := by
  have hprune : ∀ (u : FileTree) (n : Name), (u.prune (here ++ [n])).start = u.start ∧
      (u.prune (here ++ [n])).entries[([] : Place)]? = u.entries[([] : Place)]? := by
    intro u n
    refine ⟨rfl, ?_⟩
    rw [prune, erase, Std.ExtTreeMap.getElem?_erase, root_clear, if_neg]
    exact fun hsame => List.append_ne_nil_of_right_ne_nil here (List.cons_ne_nil n [])
      (Std.LawfulEqCmp.eq_of_compare hsame)
  have hkept : ∀ (ns : List Name) (u : FileTree), (u.removeAll here ns).start = u.start ∧
      (u.removeAll here ns).entries[([] : Place)]? = u.entries[([] : Place)]? := by
    intro ns
    induction ns with
    | nil => exact fun u => ⟨rfl, rfl⟩
    | cons n ns ih =>
      intro u
      obtain ⟨hstart, hroot⟩ := ih (u.prune (here ++ [n]))
      exact ⟨hstart.trans (hprune u n).1, hroot.trans (hprune u n).2⟩
  obtain ⟨hstart, hroot⟩ := hkept (t.names here) t
  refine ext_entryAt (hroot.trans (root_clear t here).symm) (fun q => ?_) hstart
  rw [entryAt_removeAll, entryAt_clear]
  by_cases hq : isBelow here q = true
  · rw [if_pos hq]
    obtain ⟨n, rest, rfl⟩ := isBelow_iff.1 hq
    split
    · rfl
    · -- a name that is not listed has nothing, and nothing is below it
      rename_i hother
      have hnone : t.entryAt (here ++ [n]) = none := by
        refine Classical.byContradiction fun hsome => hother ⟨n, mem_names_iff.2 hsome, ?_⟩
        exact ⟨rest, by simp⟩
      exact ht.none_beyond hnone rest
  · rw [if_neg hq, if_neg]
    rintro ⟨n, -, rest, rfl⟩
    exact hq (isBelow_iff.2 ⟨n, rest, by simp⟩)

/-! ## A directory that its path leads to -/

/-- A path that does not climb denotes a directory of a tree without links. -/
structure Stands (t : FileTree) (dir : Path) (here : Place) : Prop where
  proper : t.IsProper
  linkless : t.IsLinkless
  absolute : dir.isAbsolute = true
  level : .up ∉ dir.route
  lookup : t.lookup dir = .ok (here, .directory)

namespace Stands

theorem ne_nil (h : Stands t dir here) : dir ≠ [] := by
  rintro rfl
  cases h.absolute

/-- The place of the directory is told from its path. -/
theorem place_eq (h : Stands t dir here) : here = dir.endpoint := by
  have hdenotes := (denotes_of_lookup h.proper.sound h.lookup).1
  exact hdenotes.eq_endpoint h.linkless h.absolute

/-- The directory is still there in a tree that holds the same outside of it. -/
theorem of_agrees (h : Stands t dir here) (hagrees : AgreesOutside here t t') (ht' : t'.IsProper)
    (hlinks : t'.IsLinkless) : Stands t' dir here := by
  have hout : ¬ isBelow here dir.endpoint = true := by
    rw [← h.place_eq]
    simp
  refine ⟨ht', hlinks, h.absolute, h.level, ?_⟩
  rw [hagrees.lookup h.proper.sound ht'.sound h.linkless h.absolute h.level hout, h.lookup]

/-- The directory is still there when something below it is gone. -/
theorem strips (h : Stands t dir here) (h' : Strips t here t') : Stands t' dir here :=
  h.of_agrees (.of_strips h') h'.proper (h'.isLinkless h.linkless)

/-- The directory is still there when it has been filled. -/
theorem fills (h : Stands t dir here) (hfills : Fills t here t') : Stands t' dir here where
  proper := hfills.proper
  linkless := hfills.isLinkless h.linkless
  absolute := h.absolute
  level := h.level
  lookup := lookup_mono_directory h.proper.sound hfills.proper.sound hfills.start hfills.carries
    h.lookup

/-- The directory is still there when it is cleared. -/
theorem clear (h : Stands t dir here) : Stands (t.clear here) dir here := by
  refine h.of_agrees ⟨rfl, fun q hq => ?_⟩ (h.proper.clear here) fun q hq => ?_
  · rw [entryAt_clear, if_neg hq]
  · rw [entryAt_clear] at hq
    split at hq
    · obtain ⟨target, hq⟩ := hq
      cases hq
    · exact h.linkless q hq

/-- It is settled. -/
theorem settled (h : Stands t dir here) : Settled t dir here := by
  obtain ⟨hdenotes, hdirectory, -⟩ := denotes_of_lookup h.proper.sound h.lookup
  exact ⟨h.proper, h.absolute, hdenotes, hdirectory, fun q _ => h.linkless q⟩

/-- Names can be looked up in the directory. -/
theorem lookupLink_join (h : Stands t dir here) {text : Text} (hn : IsNormal text)
    (hvet : vet (dir.join text) = .ok ()) (hlength : (Utf8.encode text).length ≤ nameLimit)
    (hentry : t.entryAt (here ++ [Utf8.encode text]) = some e) :
    t.lookupLink (dir.join text) = .ok (here ++ [Utf8.encode text], e) := by
  obtain ⟨hdenotes, hdirectory, -⟩ := denotes_of_lookup h.proper.sound h.lookup
  exact (lookupLink_join_eq_ok_iff h.proper.sound h.ne_nil hn).2
    ⟨here, ⟨hvet, hdenotes, hdirectory⟩, hlength, rfl, hentry⟩

end Stands

end InterfacePackage.FileTree
