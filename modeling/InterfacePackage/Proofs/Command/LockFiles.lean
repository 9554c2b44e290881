import InterfacePackage.Command.PackageManager
import InterfacePackage.Proofs.FileTree.Agree
import InterfacePackage.Proofs.FileTree.Endpoint
import Mathlib.Data.List.Induction

/-!
# Lock files

The package manager in use is told from the lock files in a directory and in those around it. They
are looked for under the paths above the given one, which lead to all directories around it but, if
the path climbs, to others as well. Main statements: `lockedIn_eq_some_iff` (one directory),
`detect_eq_some_iff` (the paths upward) and `detect_finds_lock` (the directories around).
-/

namespace InterfacePackage

open FileTree

/-! ## Room for a name -/

namespace Path

variable {p above : Path}

/-- A name that may be put at the end of a path may be put at the end of the path above. -/
theorem vet_join_of_parent (h : p.parent = some above) {n : Text} (hn : IsNormal n)
    (hvet : vet (p.join n) = .ok ()) : vet (above.join n) = .ok () := by
  have hjoin : ∀ a : Path, ∃ slash, (slash = [] ∨ slash = ['/']) ∧
      a.join n = a ++ (slash ++ n) := by
    intro a
    rw [join, isAbsolute_of_isNormal hn, if_neg Bool.false_ne_true]
    split
    · exact ⟨[], .inl rfl, rfl⟩
    · exact ⟨['/'], .inr rfl, rfl⟩
  obtain ⟨rest, hrest, rfl⟩ := exists_append_of_parent h
  obtain ⟨slash, -, hlower⟩ := hjoin (above ++ rest)
  obtain ⟨slash', hslash', hupper⟩ := hjoin above
  rw [hlower] at hvet
  obtain ⟨hzero, hlong, -⟩ := vet_eq_ok_iff.1 hvet
  simp only [List.mem_append, not_or] at hzero
  simp only [Utf8.encode_append, List.length_append] at hlong
  -- what is left out has a byte at least, and no more than a slash is put in
  have hpositive : 0 < (Utf8.encode rest).length :=
    List.length_pos_iff.2 fun hnil => hrest (Utf8.encode_eq_nil_iff.1 hnil)
  have hshort : (Utf8.encode slash').length ≤ 1 := by
    rcases hslash' with rfl | rfl <;> decide
  have hnoZero : '\x00' ∉ slash' := by
    rcases hslash' with rfl | rfl <;> decide
  rw [hupper]
  refine vet_eq_ok_iff.2 ⟨?_, ?_, ?_⟩
  · simp only [List.mem_append, not_or]
    exact ⟨hzero.1.1, hnoZero, hzero.2.2⟩
  · simp only [Utf8.encode_append, List.length_append]
    omega
  · simp [hn.1]

/-- So it may be put at the end of every path above. -/
theorem vet_join_of_mem_ancestors (habs : p.isAbsolute = true) (habove : above ∈ p.ancestors)
    {n : Text} (hn : IsNormal n) (hvet : vet (p.join n) = .ok ()) :
    vet (above.join n) = .ok () := by
  refine of_mem_ancestors (P := fun x => vet (x.join n) = .ok ()) ?_ habs habove hvet
  exact fun _ _ _ hparent hx => vet_join_of_parent hparent hn hx

end Path

namespace PackageManager

variable {t : FileTree} {dir : Path} {q here : Place} {m : PackageManager}

/-! ## One directory -/

/-- The package manager that lock files stand for, `has` telling which of them there are. -/
inductive LockedBy (has : Text → Prop) : PackageManager → Prop where
  | pnpm (h : has "pnpm-lock.yaml") : LockedBy has .pnpm
  | bun (hpnpm : ¬ has "pnpm-lock.yaml") (h : has "bun.lockb" ∨ has "bun.lock") :
      LockedBy has .bun
  | yarn (hpnpm : ¬ has "pnpm-lock.yaml") (hbun : ¬ (has "bun.lockb" ∨ has "bun.lock"))
      (h : has "yarn.lock") : LockedBy has .yarn
  | npm (hpnpm : ¬ has "pnpm-lock.yaml") (hbun : ¬ (has "bun.lockb" ∨ has "bun.lock"))
      (hyarn : ¬ has "yarn.lock") (h : has "package-lock.json") : LockedBy has .npm

/-- The first lock file there is tells the package manager. -/
theorem find_lockFiles_eq_some_iff (has : Text → Bool) :
    (lockFiles.find? fun x => has x.1).map (·.2) = some m ↔ LockedBy (fun x => has x = true) m := by
  have hcons : ∀ (x : Text × PackageManager) (xs : List (Text × PackageManager)),
      ((x :: xs).find? fun x => has x.1).map (·.2)
        = if has x.1 = true then some x.2 else (xs.find? fun x => has x.1).map (·.2) := by
    intro x xs
    rw [List.find?_cons]
    cases has x.1 <;> rfl
  have hchain : (lockFiles.find? fun x => has x.1).map (·.2)
      = if has "pnpm-lock.yaml" = true then some pnpm
        else if has "bun.lockb" = true then some bun
        else if has "bun.lock" = true then some bun
        else if has "yarn.lock" = true then some yarn
        else if has "package-lock.json" = true then some npm
        else none := by
    rw [lockFiles, hcons, hcons, hcons, hcons, hcons]
    rfl
  rw [hchain]
  constructor
  · intro h
    by_cases hpnpm : has "pnpm-lock.yaml" = true
    · rw [if_pos hpnpm] at h
      cases h
      exact .pnpm hpnpm
    by_cases hbunb : has "bun.lockb" = true
    · rw [if_neg hpnpm, if_pos hbunb] at h
      cases h
      exact .bun hpnpm (.inl hbunb)
    by_cases hbun : has "bun.lock" = true
    · rw [if_neg hpnpm, if_neg hbunb, if_pos hbun] at h
      cases h
      exact .bun hpnpm (.inr hbun)
    by_cases hyarn : has "yarn.lock" = true
    · rw [if_neg hpnpm, if_neg hbunb, if_neg hbun, if_pos hyarn] at h
      cases h
      exact .yarn hpnpm (not_or.2 ⟨hbunb, hbun⟩) hyarn
    by_cases hnpm : has "package-lock.json" = true
    · rw [if_neg hpnpm, if_neg hbunb, if_neg hbun, if_neg hyarn, if_pos hnpm] at h
      cases h
      exact .npm hpnpm (not_or.2 ⟨hbunb, hbun⟩) hyarn hnpm
    · rw [if_neg hpnpm, if_neg hbunb, if_neg hbun, if_neg hyarn, if_neg hnpm] at h
      cases h
  · intro h
    cases h with
    | pnpm h => rw [if_pos h]
    | bun hpnpm h =>
      rw [if_neg hpnpm]
      by_cases hold : has "bun.lockb" = true
      · rw [if_pos hold]
      · rw [if_neg hold, if_pos (h.resolve_left hold)]
    | yarn hpnpm hbun h =>
      rw [not_or] at hbun
      rw [if_neg hpnpm, if_neg hbun.1, if_neg hbun.2, if_pos h]
    | npm hpnpm hbun hyarn h =>
      rw [not_or] at hbun
      rw [if_neg hpnpm, if_neg hbun.1, if_neg hbun.2, if_neg hyarn, if_pos h]

/-- Where the same lock files are, they stand for the same package manager. -/
theorem LockedBy.of_same {has has' : Text → Prop} (h : ∀ x ∈ lockFiles, has x.1 ↔ has' x.1)
    (hm : LockedBy has m) : LockedBy has' m := by
  have hpnpm := h ("pnpm-lock.yaml", .pnpm) (.head _)
  have hbunb := h ("bun.lockb", .bun) (.tail _ (.head _))
  have hbun := h ("bun.lock", .bun) (.tail _ (.tail _ (.head _)))
  have hyarn := h ("yarn.lock", .yarn) (.tail _ (.tail _ (.tail _ (.head _))))
  have hnpm := h ("package-lock.json", .npm) (.tail _ (.tail _ (.tail _ (.tail _ (.head _)))))
  have hbuns := or_congr hbunb hbun
  cases hm with
  | pnpm hm => exact .pnpm (hpnpm.1 hm)
  | bun hp hm => exact .bun (mt hpnpm.2 hp) (hbuns.1 hm)
  | yarn hp hb hm => exact .yarn (mt hpnpm.2 hp) (mt hbuns.2 hb) (hyarn.1 hm)
  | npm hp hb hy hm =>
    exact .npm (mt hpnpm.2 hp) (mt hbuns.2 hb) (mt hyarn.2 hy) (hnpm.1 hm)

/-- What lock files stand for depends on nothing but which of them there are. -/
theorem LockedBy.congr {has has' : Text → Prop} (h : ∀ x ∈ lockFiles, has x.1 ↔ has' x.1) :
    LockedBy has m ↔ LockedBy has' m :=
  ⟨.of_same h, .of_same fun x hx => (h x hx).symm⟩

/-- The lock files have normal names, none longer than the last. -/
theorem lockFile_spec : ∀ x ∈ lockFiles, IsNormal x.1 ∧ '\x00' ∉ x.1 ∧
    (Utf8.encode x.1).length ≤ (Utf8.encode ("package-lock.json" : Text)).length := by decide

/-- Something of that name stands in a directory. -/
def Holds (t : FileTree) (q : Place) (file : Text) : Prop :=
  t.entryAt (q ++ [Utf8.encode file]) ≠ none

instance (t : FileTree) (q : Place) (file : Text) : Decidable (Holds t q file) :=
  inferInstanceAs (Decidable (_ ≠ _))

/-- Something of that name stands in the directory that a path leads to, and its path is not too
long. -/
def Sees (t : FileTree) (dir : Path) (file : Text) : Prop :=
  vet (dir.join file) = .ok () ∧ Holds t dir.endpoint file

/-- A lock file tells the package manager of a directory if it stands there and can be looked up. -/
theorem lockedIn_eq_some_iff (ht : t.IsSound) (hlinks : t.IsLinkless)
    (habs : dir.isAbsolute = true) (hdir : t.DenotesDirectory dir) :
    lockedIn t dir = some m ↔ LockedBy (Sees t dir) m := by
  obtain ⟨hdenotes, henter⟩ := hdir.denotes hlinks habs
  have hlimit : (Utf8.encode ("package-lock.json" : Text)).length ≤ nameLimit := by decide
  rw [lockedIn, find_lockFiles_eq_some_iff fun file => t.exists? (dir.join file)]
  refine LockedBy.congr fun x hx => ?_
  obtain ⟨hn, -, hlength⟩ := lockFile_spec x hx
  have hfound : ∀ q e, t.lookup (dir.join x.1) = .ok (q, e) ↔
      vet (dir.join x.1) = .ok () ∧ (Utf8.encode x.1).length ≤ nameLimit ∧
        q = dir.endpoint ++ [Utf8.encode x.1] ∧ t.entryAt q = some e := fun q e =>
    lookup_join_eq_ok_iff ht (Path.ne_nil_of_isAbsolute habs) hn hdenotes henter.directory
      (hlinks _)
  constructor
  · intro hexists
    obtain ⟨q, e, hlookup⟩ := lookup_of_exists? hexists
    obtain ⟨hvet, -, rfl, hentry⟩ := (hfound q e).1 hlookup
    exact ⟨hvet, by simp [Holds, hentry]⟩
  · rintro ⟨hvet, hholds⟩
    obtain ⟨e, hentry⟩ := Option.ne_none_iff_exists'.1 hholds
    exact exists?_of_lookup ((hfound _ e).2 ⟨hvet, Nat.le_trans hlength hlimit, rfl, hentry⟩)

/-! ## The directories around -/

/-- The lock files of a directory stand for a package manager. -/
def IsLocked (t : FileTree) (q : Place) : Prop := ∃ m, LockedBy (Holds t q) m

/-- A directory has a package manager exactly if it holds one of the lock files. -/
theorem isLocked_iff : IsLocked t q ↔ ∃ x ∈ lockFiles, Holds t q x.1 := by
  have hfind : ∀ m, (lockFiles.find? fun x => decide (Holds t q x.1)).map (·.2) = some m ↔
      LockedBy (Holds t q) m := by
    intro m
    rw [find_lockFiles_eq_some_iff fun file => decide (Holds t q file)]
    exact LockedBy.congr fun x _ => decide_eq_true_iff
  rw [IsLocked, ← exists_congr hfind, ← Option.isSome_iff_exists, Option.isSome_map,
    List.find?_isSome]
  simp only [decide_eq_true_eq]

instance (t : FileTree) (q : Place) : Decidable (IsLocked t q) :=
  decidable_of_iff _ isLocked_iff.symm

/-- The package manager that the lock files of a directory stand for, or else those of the nearest
directory around it that has any. -/
def IsNearest (t : FileTree) (here : Place) (m : PackageManager) : Prop :=
  ∃ q, q <+: here ∧ LockedBy (Holds t q) m ∧
    ∀ r, r <+: here → isBelow q r = true → ¬ IsLocked t r

/-- If there is a lock file around then there is one nearest. -/
theorem exists_isNearest (h : ∃ q, q <+: here ∧ IsLocked t q) : ∃ m, IsNearest t here m := by
  induction here using List.reverseRecOn with
  | nil =>
    obtain ⟨q, hq, m, hm⟩ := h
    obtain rfl := List.prefix_nil.1 hq
    refine ⟨m, [], hq, hm, fun r hr hbelow => ?_⟩
    rw [List.prefix_nil.1 hr, isBelow_self] at hbelow
    cases hbelow
  | append_singleton above n ih =>
    by_cases hself : IsLocked t (above ++ [n])
    · obtain ⟨m, hm⟩ := hself
      refine ⟨m, above ++ [n], List.prefix_refl _, hm, fun r hr hbelow => ?_⟩
      exact absurd hbelow (not_isBelow_above hr (by simp))
    · obtain ⟨q, hq, hlocked⟩ := h
      have habove : q <+: above := by
        refine (List.prefix_concat_iff.1 hq).resolve_left ?_
        rintro rfl
        exact hself hlocked
      obtain ⟨m, q, hq, hm, hnearest⟩ := ih ⟨q, habove, hlocked⟩
      refine ⟨m, q, hq.trans (List.prefix_append _ _), hm, fun r hr hbelow => ?_⟩
      rcases List.prefix_concat_iff.1 hr with rfl | hr
      · exact hself
      · exact hnearest r hr hbelow

/-- Detection comes to what the first of the paths upward shows that shows a lock file. -/
theorem detect_eq_some_iff (ht : t.IsSound) (hlinks : t.IsLinkless) (habs : dir.isAbsolute = true)
    (hdir : t.DenotesDirectory dir) :
    detect t dir = some m ↔ ∃ before above after, dir.ancestors = before ++ above :: after ∧
      LockedBy (Sees t above) m ∧ ∀ x ∈ before, ∀ m', ¬ LockedBy (Sees t x) m' := by
  have hone : ∀ above ∈ dir.ancestors, ∀ m',
      lockedIn t above = some m' ↔ LockedBy (Sees t above) m' := fun above habove m' =>
    lockedIn_eq_some_iff ht hlinks (Path.pieces_of_mem_ancestors habs habove).1
      (hdir.of_mem_ancestors hlinks habs habove)
  rw [detect, List.findSome?_eq_some_iff]
  refine exists_congr fun before => exists_congr fun above => exists_congr fun after =>
    and_congr_right fun hancestors => ?_
  rw [hancestors] at hone
  rw [hone above (by simp)]
  refine and_congr_right fun _ => forall₂_congr fun x hx => ?_
  rw [Option.eq_none_iff_forall_ne_some]
  exact forall_congr' fun m' => not_congr (hone x (by simp [hx]) m')

/-- Detection tells the package manager of the nearest lock file around a directory, and tells none
only if there is no lock file around. -/
def FindsNearest (t : FileTree) (dir : Path) (here : Place) : Prop :=
  (∀ m, detect t dir = some m ↔ IsNearest t here m) ∧
    (detect t dir ≠ none ↔ ∃ q, q <+: here ∧ IsLocked t q)

section

variable (ht : t.IsSound) (hlinks : t.IsLinkless) (habs : dir.isAbsolute = true)
  (hdir : t.DenotesDirectory dir) (hroom : vet (dir.join "package-lock.json") = .ok ())

include ht hlinks habs hdir hroom

/-- If the longest of the lock files may be looked up under a path, all of them may be under the
paths above it. -/
theorem lockedIn_eq_some_iff_of_room {above : Path} (habove : above ∈ dir.ancestors) :
    lockedIn t above = some m ↔ LockedBy (Holds t above.endpoint) m := by
  rw [lockedIn_eq_some_iff ht hlinks (Path.pieces_of_mem_ancestors habs habove).1
    (hdir.of_mem_ancestors hlinks habs habove)]
  refine LockedBy.congr fun x hx => and_iff_right ?_
  obtain ⟨hn, hzero, hlength⟩ := lockFile_spec x hx
  exact Path.vet_join_of_mem_ancestors habs habove hn (vet_join (by decide) hn hzero hlength hroom)

/-- A lock file around is not missed. -/
theorem detect_ne_none (h : ∃ q, q <+: dir.endpoint ∧ IsLocked t q) : detect t dir ≠ none := by
  obtain ⟨q, hq, m, hm⟩ := h
  obtain ⟨before, above, after, hancestors, rfl, -⟩ := Path.exists_ancestor_leading_to habs hq
  have habove : above ∈ dir.ancestors := by simp [hancestors]
  intro hnone
  have hmissed := List.findSome?_eq_none_iff.1 hnone above habove
  rw [(lockedIn_eq_some_iff_of_room ht hlinks habs hdir hroom habove).2 hm] at hmissed
  cases hmissed

/-- The nearest lock file is found unless the path passes another one that is not around. -/
theorem detect_of_isNearest
    (hdetour : ∀ above ∈ dir.ancestors, IsLocked t above.endpoint →
      above.endpoint <+: dir.endpoint)
    (h : IsNearest t dir.endpoint m) : detect t dir = some m := by
  obtain ⟨q, hq, hm, hnearest⟩ := h
  obtain ⟨before, above, after, hancestors, rfl, hbefore⟩ := Path.exists_ancestor_leading_to habs hq
  have hone : ∀ x ∈ dir.ancestors, ∀ m',
      lockedIn t x = some m' ↔ LockedBy (Holds t x.endpoint) m' := fun x hx m' =>
    lockedIn_eq_some_iff_of_room ht hlinks habs hdir hroom hx
  rw [hancestors] at hone hdetour
  have hfound : lockedIn t above = some m := (hone above (by simp) m).2 hm
  rw [detect, hancestors, List.findSome?_append, List.findSome?_cons, hfound]
  -- before the nearest directory another path can only lead to that directory
  cases hfirst : before.findSome? (lockedIn t) with
  | none => rfl
  | some m' =>
    obtain ⟨x, hx, hlocked⟩ := List.exists_of_findSome?_eq_some hfirst
    have hx' : x ∈ before ++ above :: after := by simp [hx]
    have hown := (hone x hx' m').1 hlocked
    have haround := hdetour x hx' ⟨m', hown⟩
    rcases prefix_iff.1 (hbefore x hx) with hsame | hbelow
    · rw [← hsame] at hown
      have hagain := (hone above (by simp) m').2 hown
      rw [hfound] at hagain
      cases hagain
      rfl
    · exact absurd ⟨m', hown⟩ (hnearest _ haround hbelow)

/-- Detection finds the nearest lock file on a path that passes no lock file but those around. -/
theorem findsNearest_of_no_detour
    (hdetour : ∀ above ∈ dir.ancestors, IsLocked t above.endpoint →
      above.endpoint <+: dir.endpoint) : FindsNearest t dir dir.endpoint := by
  have haround : detect t dir ≠ none → ∃ q, q <+: dir.endpoint ∧ IsLocked t q := by
    intro hsome
    obtain ⟨m, hm⟩ := Option.ne_none_iff_exists'.1 hsome
    obtain ⟨above, habove, hlocked⟩ := List.exists_of_findSome?_eq_some hm
    have hone := (lockedIn_eq_some_iff_of_room ht hlinks habs hdir hroom habove).1 hlocked
    exact ⟨_, hdetour above habove ⟨m, hone⟩, m, hone⟩
  refine ⟨fun m => ⟨fun hm => ?_, ?_⟩, haround, detect_ne_none ht hlinks habs hdir hroom⟩
  · obtain ⟨m', hnearest⟩ := exists_isNearest (haround (by simp [hm]))
    rw [detect_of_isNearest ht hlinks habs hdir hroom hdetour hnearest] at hm
    cases hm
    exact hnearest
  · exact detect_of_isNearest ht hlinks habs hdir hroom hdetour

end

/-- In a tree without links, detection from a directory comes to what the first of the paths upward
shows that shows a lock file. With room for the names of the lock files behind the path, a lock file
around the directory is not missed, and the nearest one decides if the path passes no other lock
files, as it does not if it does not climb. -/
theorem detect_finds_lock (ht : t.IsProper) (hlinks : t.IsLinkless) (habs : dir.isAbsolute = true)
    (hlookup : t.lookup dir = .ok (here, .directory)) :
    (∀ m, detect t dir = some m ↔ ∃ before above after, dir.ancestors = before ++ above :: after ∧
      LockedBy (Sees t above) m ∧ ∀ x ∈ before, ∀ m', ¬ LockedBy (Sees t x) m') ∧
    (vet (dir.join "package-lock.json") = .ok () →
      ((∃ q, q <+: here ∧ IsLocked t q) → detect t dir ≠ none) ∧
      ((∀ above ∈ dir.ancestors, IsLocked t above.endpoint → above.endpoint <+: here) →
        FindsNearest t dir here) ∧
      (.up ∉ dir.components → FindsNearest t dir here)) := by
  have hdir := denotesDirectory_of_lookup ht.sound hlookup
  obtain rfl := (denotes_of_lookup ht.sound hlookup).1.eq_endpoint hlinks habs
  refine ⟨fun m => detect_eq_some_iff ht.sound hlinks habs hdir, fun hroom => ?_⟩
  have hfinds := findsNearest_of_no_detour ht.sound hlinks habs hdir hroom
  refine ⟨detect_ne_none ht.sound hlinks habs hdir hroom, hfinds, fun hup => hfinds ?_⟩
  exact fun above habove _ => Path.endpoint_prefix_of_up_notMem habs hup habove

/-! ## Past a lock file -/

/-- A project in `/ws` with a lock file in one of its directories and none at its top. -/
def nestedProject : FileTree :=
  ((FileTree.put ⟨∅, []⟩ [Utf8.encode ['w', 's']] .directory).put
    [Utf8.encode ['w', 's'], Utf8.encode ['s', 'u', 'b']] .directory).put
    [Utf8.encode ['w', 's'], Utf8.encode ['s', 'u', 'b'], Utf8.encode "yarn.lock"] (.file [])

/-- From the directory with the lock file this is the nearest one, also where the path climbs out of
that directory and comes back. -/
theorem detect_finds_lock_nestedProject :
    nestedProject.lookup ['/', 'w', 's', '/', 's', 'u', 'b', '/', '.', '.', '/', 's', 'u', 'b']
        = .ok ([Utf8.encode ['w', 's'], Utf8.encode ['s', 'u', 'b']], .directory) ∧
      FindsNearest nestedProject
        ['/', 'w', 's', '/', 's', 'u', 'b', '/', '.', '.', '/', 's', 'u', 'b']
        [Utf8.encode ['w', 's'], Utf8.encode ['s', 'u', 'b']] ∧
      IsNearest nestedProject [Utf8.encode ['w', 's'], Utf8.encode ['s', 'u', 'b']] .yarn := by
  have hproper : nestedProject.IsProper := by decide +kernel
  have hlinks : nestedProject.IsLinkless := by decide +kernel
  have hlookup : nestedProject.lookup
      ['/', 'w', 's', '/', 's', 'u', 'b', '/', '.', '.', '/', 's', 'u', 'b']
        = .ok ([Utf8.encode ['w', 's'], Utf8.encode ['s', 'u', 'b']], .directory) := rfl
  have hfinds := (detect_finds_lock hproper hlinks rfl hlookup).2 (by decide +kernel)
  have hnearest := hfinds.2.1 (by decide +kernel)
  exact ⟨hlookup, hnearest, (hnearest.1 .yarn).1 rfl⟩

/-- From the top of the project, spelled by way of that directory, the lock file decides as well,
though neither the top nor the root holds one. -/
theorem detect_misleads_nestedProject :
    nestedProject.IsProper ∧ nestedProject.IsLinkless ∧
      nestedProject.lookup ['/', 'w', 's', '/', 's', 'u', 'b', '/', '.', '.']
        = .ok ([Utf8.encode ['w', 's']], .directory) ∧
      detect nestedProject ['/', 'w', 's', '/', 's', 'u', 'b', '/', '.', '.'] = some .yarn ∧
      ¬ ∃ q, q <+: [Utf8.encode ['w', 's']] ∧ IsLocked nestedProject q := by
  refine ⟨by decide +kernel, by decide +kernel, rfl, rfl, ?_⟩
  rintro ⟨q, hq, hlocked⟩
  rcases List.prefix_concat_iff.1 (show q <+: [] ++ [Utf8.encode ['w', 's']] from hq) with rfl | hq
  · exact absurd hlocked (by decide +kernel)
  · rw [List.prefix_nil.1 hq] at hlocked
    exact absurd hlocked (by decide +kernel)

end PackageManager

end InterfacePackage
