import InterfacePackage.Proofs.Export.Prepare
import InterfacePackage.Proofs.FileTree.Prune

/-!
# The export directory emptied

In a tree without links, preparing an export directory that is there either clears it and does
nothing else, or it fails on an entry that cannot be named. Main statement: `prepare_eq_ok_iff`.
-/

namespace InterfacePackage.Export

open FileTree

variable {workspace dir : Path} {s s' : Session} {here : Place} {n : Name} {e : Entry}

/-! ## One entry -/

/-- An entry of this name can be removed under its path: the name is text, and neither it nor the
path is too long. -/
structure Removable (dir : Path) (n : Name) : Prop where
  short : n.length ≤ nameLimit
  named : ∃ text, Utf8.decode n = some text ∧ vet (dir.join text) = .ok ()

section

variable (h : Stands s.tree dir here) (hentry : s.tree.entryAt (here ++ [n]) = some e)

include h hentry

/-- An entry that can be removed is removed with all that is below it. -/
theorem removeEntry_of_removable (hn : Removable dir n) :
    outcome (removeEntry dir n (decide (e = .directory))) s
      = (.ok (), { s with tree := s.tree.prune (here ++ [n]) }) := by
  obtain ⟨text, htext, hvet⟩ := hn.named
  have hencode := Utf8.encode_of_decode htext
  have hname : IsNormal text := (h.proper.named here n (by simp [hentry])).decode htext
  have hshort := hn.short
  rw [← hencode] at hentry hshort ⊢
  have hlookup := h.lookupLink_join hname hvet hshort hentry
  unfold removeEntry
  rw [Utf8.decode_encode]
  cases e with
  | link target => exact absurd ⟨target, hentry⟩ (h.linkless _)
  | file content =>
    have hother : s.tree.entryAt (here ++ [Utf8.encode text]) ≠ some .directory := by simp [hentry]
    have hremove : s.tree.removeFile (dir.join text)
        = .ok (s.tree.prune (here ++ [Utf8.encode text])) := by
      rw [prune_of_other h.proper.sound hother, removeFile, hlookup]
      rfl
    change outcome (alter (change (·.removeFile (dir.join text))) _) s = _
    rw [outcome_alter, outcome_change, hremove]
    rfl
  | directory =>
    -- the path still leads there when the entry has been emptied
    have hstrips := strips_clear h.proper
      (isBelow_append here (List.cons_ne_nil (Utf8.encode text) []))
    have hself : (s.tree.clear (here ++ [Utf8.encode text])).entryAt (here ++ [Utf8.encode text])
        = some .directory := by
      rw [entryAt_clear, isBelow_self, if_neg Bool.false_ne_true, hentry]
    have hagain := (h.strips hstrips).lookupLink_join hname hvet hshort hself
    have hremove : outcome (removeDirectory (dir.join text)) s.tree
        = (.ok (), s.tree.prune (here ++ [Utf8.encode text])) := by
      rw [removeDirectory, outcome_bind, outcome_get]
      dsimp only
      rw [hlookup]
      dsimp only
      rw [outcome_bind, outcome_modify]
      dsimp only
      rw [outcome_change, removeEmptied, hagain]
      rfl
    change outcome (alter (removeDirectory (dir.join text)) _) s = _
    rw [outcome_alter, hremove]
    rfl

/-- An entry that is removed can be. -/
theorem removable_of_removeEntry
    (hok : outcome (removeEntry dir n (decide (e = .directory))) s = (.ok (), s')) :
    Removable dir n := by
  unfold removeEntry at hok
  cases htext : Utf8.decode n with
  | none =>
    rw [htext] at hok
    cases hok
  | some text =>
    have hencode := Utf8.encode_of_decode htext
    have hname : IsNormal text := (h.proper.named here n (by simp [hentry])).decode htext
    -- either way of removing it has to look it up
    have hfound : ∀ found, s.tree.lookupLink (dir.join text) = .ok found → Removable dir n := by
      rintro ⟨q, e'⟩ hlookup
      obtain ⟨-, ⟨hvet, -⟩, hshort, -⟩ :=
        (lookupLink_join_eq_ok_iff h.proper.sound h.ne_nil hname).1 hlookup
      exact ⟨hencode ▸ hshort, text, htext, hvet⟩
    rw [htext] at hok
    dsimp only at hok
    cases hlookup : s.tree.lookupLink (dir.join text) with
    | ok found => exact hfound found hlookup
    | error fault =>
      split at hok
      · have hremove := outcome_of_alter hok
        rw [removeDirectory, outcome_bind, outcome_get] at hremove
        dsimp only at hremove
        rw [hlookup] at hremove
        cases hremove
      · have hremove := eq_ok_of_alter_change hok
        rw [removeFile, hlookup] at hremove
        cases hremove

/-- An entry is removed with all that is below it, or it cannot be removed. -/
theorem removeEntry_eq_ok_iff :
    outcome (removeEntry dir n (decide (e = .directory))) s = (.ok (), s') ↔
      Removable dir n ∧ s' = { s with tree := s.tree.prune (here ++ [n]) } := by
  constructor
  · intro hok
    have hn := removable_of_removeEntry h hentry hok
    rw [removeEntry_of_removable h hentry hn] at hok
    cases hok
    exact ⟨hn, rfl⟩
  · rintro ⟨hn, rfl⟩
    exact removeEntry_of_removable h hentry hn

end

/-! ## All entries -/

/-- The entries of some names in a directory, as they are listed. -/
def entriesAt (t : FileTree) (here : Place) (ns : List Name) : List (Name × Bool) :=
  ns.map fun n => (n, t.entryAt (here ++ [n]) = some .directory)

/-- Removing one entry leaves the others. -/
theorem entryAt_prune_of_ne (t : FileTree) {m : Name} (hne : m ≠ n) :
    (t.prune (here ++ [n])).entryAt (here ++ [m]) = t.entryAt (here ++ [m]) := by
  have hother : ¬ here ++ [n] <+: here ++ [m] := by
    rintro ⟨rest, heq⟩
    rw [List.append_assoc] at heq
    exact hne (List.cons.inj (List.append_cancel_left heq)).1.symm
  rw [entryAt_prune t (by simp), if_neg hother]

/-- Removing one entry does not change what the others are listed as. -/
theorem entriesAt_prune (t : FileTree) {ns : List Name} (hn : n ∉ ns) :
    entriesAt (t.prune (here ++ [n])) here ns = entriesAt t here ns := by
  refine List.map_congr_left fun m hm => ?_
  have hmn : m ≠ n := fun hsame => hn (hsame ▸ hm)
  rw [entryAt_prune_of_ne t hmn]

/-- Entries of different names are all removed, or one of them cannot be. -/
theorem removeEntries_eq_ok_iff {ns : List Name} (h : Stands s.tree dir here) (hns : ns.Nodup)
    (hsome : ∀ n ∈ ns, s.tree.entryAt (here ++ [n]) ≠ none) :
    outcome ((entriesAt s.tree here ns).forM fun x => removeEntry dir x.1 x.2) s = (.ok (), s') ↔
      (∀ n ∈ ns, Removable dir n) ∧ s' = { s with tree := s.tree.removeAll here ns } := by
  induction ns generalizing s with
  | nil =>
    constructor
    · intro hok
      cases hok
      exact ⟨nofun, rfl⟩
    · rintro ⟨-, rfl⟩
      rfl
  | cons n ns ih =>
    rw [List.nodup_cons] at hns
    obtain ⟨e, hentry⟩ := Option.ne_none_iff_exists'.1 (hsome n List.mem_cons_self)
    have hstrips := strips_prune h.proper (isBelow_append here (List.cons_ne_nil n []))
    have hleft : ∀ m ∈ ns, (s.tree.prune (here ++ [n])).entryAt (here ++ [m]) ≠ none := by
      intro m hm
      have hmn : m ≠ n := fun hsame => hns.1 (hsame ▸ hm)
      rw [entryAt_prune_of_ne s.tree hmn]
      exact hsome m (List.mem_cons_of_mem _ hm)
    have hrest := @ih { s with tree := s.tree.prune (here ++ [n]) } (h.strips hstrips) hns.2 hleft
    rw [entriesAt_prune s.tree hns.1] at hrest
    have hflag : decide (s.tree.entryAt (here ++ [n]) = some .directory)
        = decide (e = .directory) := by
      simp [hentry]
    change outcome (removeEntry dir n (decide (s.tree.entryAt (here ++ [n]) = some .directory))
      >>= fun _ => (entriesAt s.tree here ns).forM fun x => removeEntry dir x.1 x.2) s = _ ↔ _
    rw [outcome_bind_eq_ok, hflag, List.forall_mem_cons]
    constructor
    · rintro ⟨_, s₁, hfirst, hall⟩
      obtain ⟨hn, rfl⟩ := (removeEntry_eq_ok_iff h hentry).1 hfirst
      obtain ⟨hremovable, rfl⟩ := hrest.1 hall
      exact ⟨⟨hn, hremovable⟩, rfl⟩
    · rintro ⟨⟨hn, hremovable⟩, rfl⟩
      exact ⟨(), _, (removeEntry_eq_ok_iff h hentry).2 ⟨hn, rfl⟩, hrest.2 ⟨hremovable, rfl⟩⟩

/-! ## The export directory -/

/-- An export directory that is there is prepared exactly if it is not refused and all its entries
can be removed. It is cleared then, and nothing else changes. -/
theorem prepare_eq_ok_iff (h : Stands s.tree dir here) :
    outcome (prepare workspace dir) s = (.ok (), s') ↔
      (encloses dir workspace = false ∧
        ∀ n, s.tree.entryAt (here ++ [n]) ≠ none → Removable dir n) ∧
      s' = { s with tree := s.tree.clear here } := by
  cases hguard : encloses dir workspace with
  | true =>
    rw [prepare_of_encloses hguard]
    constructor
    · intro hok
      cases hok
    · rintro ⟨⟨hpassed, -⟩, -⟩
      cases hpassed
  | false =>
    have hexists := exists?_of_lookup h.lookup
    have hsome : ∀ n ∈ s.tree.names here, s.tree.entryAt (here ++ [n]) ≠ none :=
      fun n hn => mem_names_iff.1 hn
    rw [outcome_prepare hguard, if_pos hexists, entriesOf_directory h.lookup]
    have hloop := @removeEntries_eq_ok_iff dir s s' here _ h (nodup_names s.tree here) hsome
    rw [removeAll_names h.proper.sound] at hloop
    refine hloop.trans (and_congr_left fun _ => ?_)
    simp only [mem_names_iff, true_and]

end InterfacePackage.Export
