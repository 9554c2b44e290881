import InterfacePackage.Proofs.FileTree.Change

/-!
# Paths into a directory

What a path does that goes on from another one: it passes through the directory that the first one
denotes, and a name at its end is looked up there. Main statements: `lookup_mono`, `Denotes.of_join`
and `lookupLink_join_eq_ok_iff`.
-/

namespace InterfacePackage.FileTree

variable {t t' : FileTree} {p q : Place} {e : Entry}

/-! ## Lookups in a tree that has changed -/

/-- Where a path leads it finds what stands there in any tree that has all directories and links,
and something else than a link there. -/
theorem lookup_of_place (h : t.IsSound) (h' : t'.IsSound) (hstart : t'.start = t.start)
    (hcarries : Carries t t') {path : Path} (hplace : t.place path = .ok q)
    (hentry : t'.entryAt q = some e) (hlink : ¬ IsLink (some e)) : t'.lookup path = .ok (q, e) := by
  obtain ⟨hvet, hfollow⟩ := place_eq_ok_iff.1 hplace
  have hreaches : Reaches t linkLimit (t.startOf path) (Step.ofPath path) q :=
    reaches_of_follow h hfollow
  have hreaches' := hreaches.mono hcarries (by simp [hentry]) (by rwa [hentry])
  have hsame : t'.startOf path = t.startOf path := by rw [startOf, startOf, hstart]
  rw [← hsame] at hreaches'
  exact lookup_eq_ok_iff.2 ⟨hvet, lookupFrom_of_reaches h' hreaches' hentry⟩

/-- What is looked up is found where its path leads. -/
theorem place_of_lookup {path : Path} (hlookup : t.lookup path = .ok (q, e)) :
    t.place path = .ok q := by
  obtain ⟨hvet, hfrom⟩ := lookup_eq_ok_iff.1 hlookup
  unfold lookupFrom at hfrom
  cases hfollow : t.follow linkLimit (t.startOf path) (Step.ofPath path) with
  | error fault =>
    simp only [hfollow, bind, Except.bind] at hfrom
    cases hfrom
  | ok there =>
    simp only [hfollow, bind, Except.bind] at hfrom
    split at hfrom
    · cases hfrom
      exact place_eq_ok_iff.2 ⟨hvet, hfollow⟩
    · cases hfrom

/-- What is looked up is found in any tree that has all directories and links, and something else
than a link there. -/
theorem lookup_mono (h : t.IsSound) (h' : t'.IsSound) (hstart : t'.start = t.start)
    (hcarries : Carries t t') {path : Path} {e' : Entry} (hlookup : t.lookup path = .ok (q, e))
    (hentry : t'.entryAt q = some e') (hlink : ¬ IsLink (some e')) :
    t'.lookup path = .ok (q, e') :=
  lookup_of_place h h' hstart hcarries (place_of_lookup hlookup) hentry hlink

/-- A directory that is looked up is found in any tree that has all directories and links. -/
theorem lookup_mono_directory (h : t.IsSound) (h' : t'.IsSound) (hstart : t'.start = t.start)
    (hcarries : Carries t t') {path : Path} (hlookup : t.lookup path = .ok (q, .directory)) :
    t'.lookup path = .ok (q, .directory) := by
  have hentry := hcarries.directory q (denotes_of_lookup h hlookup).2.1
  exact lookup_mono h h' hstart hcarries hlookup hentry (by simp [IsLink])

/-- A path that denotes a directory denotes it in any tree that has all directories and links. -/
theorem Denotes.mono (hstart : t'.start = t.start) (hcarries : Carries t t') {path : Path}
    (hpath : t.Denotes path q) (hq : t.entryAt q = some .directory) : t'.Denotes path q := by
  have hsame : t'.startOf path = t.startOf path := by rw [startOf, startOf, hstart]
  rw [Denotes, hsame]
  exact Reaches.mono_directory hcarries hpath hq

/-! ## Joined paths -/

variable {dir : Path}

/-- A path that goes on starts where it did. -/
theorem startOf_join (t : FileTree) (hdir : dir ≠ []) {rest : Path}
    (hrest : rest.isAbsolute = false) : t.startOf (dir.join rest) = t.startOf dir := by
  rw [startOf, startOf, Path.isAbsolute_join hdir hrest]

/-- What passes with a name at its end passes with another one that is no longer. -/
theorem vet_join {dir : Path} {n m : Text} (hn : IsNormal n) (hm : IsNormal m) (hzero : '\x00' ∉ m)
    (hlength : (Utf8.encode m).length ≤ (Utf8.encode n).length) (h : vet (dir.join n) = .ok ()) :
    vet (dir.join m) = .ok () := by
  obtain ⟨front, hjoin⟩ := Path.exists_join_name dir
  rw [hjoin n hn] at h
  obtain ⟨hfront, hlong, -⟩ := vet_eq_ok_iff.1 h
  rw [List.mem_append, not_or] at hfront
  rw [Utf8.encode_append, List.length_append] at hlong
  rw [hjoin m hm]
  refine vet_eq_ok_iff.2 ⟨?_, ?_, ?_⟩
  · rw [List.mem_append, not_or]
    exact ⟨hfront.1, hzero⟩
  · rw [Utf8.encode_append, List.length_append]
    omega
  · exact List.append_ne_nil_of_right_ne_nil front hm.1

/-- A path that goes on from another passes through the directory that the other denotes. -/
theorem Denotes.of_join (hdir : dir ≠ []) {rest : Path} (hrest : rest.isAbsolute = false)
    (hroute : rest.route ≠ []) (h : t.Denotes (dir.join rest) q) :
    ∃ here, t.Denotes dir here ∧ t.entryAt here = some .directory ∧
      ∃ left, Reaches t left here rest.route q := by
  rw [Denotes, startOf_join t hdir hrest, Path.route_join hrest] at h
  -- the walk goes on behind the first path, so it led to a directory
  obtain ⟨here, hfront, hhere⟩ := h.split hroute
  obtain ⟨left, hback⟩ := hfront.append hhere
  exact ⟨here, hfront, hhere, left, (hback _ _).1 h⟩

/-! ## Names in a directory -/

/-- The steps before the name that a path ends in lead where the path before it does. -/
theorem filter_front {front : List Text} {n : Text} (hn : IsNormal n)
    (hsplit : Text.split '/' (dir.join n) = front ++ [n]) :
    (front.map Step.ofPiece).filter (· ≠ .stay) = dir.route := by
  have hroute := @route_of_pieces (dir.join n) front [] n _ hsplit (by simp)
    (Step.ofPiece_of_some hn.ofPiece?).1
  rw [Path.route_join (Path.isAbsolute_of_isNormal hn), Path.route_name hn] at hroute
  exact (List.append_inj' hroute rfl).1.symm

/-- What a path names that ends in a normal name stands under that name in the directory that the
path before it denotes. -/
theorem owner_join_eq_ok_iff (h : t.IsSound) (hdir : dir ≠ []) {n : Text} (hn : IsNormal n)
    {here : Place} {name : Option Name} :
    t.owner (dir.join n) = .ok (here, name) ↔
      (vet (dir.join n) = .ok () ∧ t.Denotes dir here ∧ t.entryAt here = some .directory)
        ∧ (Utf8.encode n).length ≤ nameLimit ∧ name = some (Utf8.encode n) := by
  obtain ⟨front, hsplit⟩ := Path.split_join_name dir hn
  -- the name is the last piece, so no empty ones have to be dropped
  have hdrop : (Text.split '/' (dir.join n)).reverse.dropWhile (· = []) = n :: front.reverse := by
    rw [hsplit, List.reverse_append, List.reverse_singleton, List.singleton_append,
      List.dropWhile_cons_of_neg (by simpa using hn.1)]
  have hstep : Step.ofPiece n = .into (Utf8.encode n) := (Step.ofPiece_of_some hn.ofPiece?).1
  have hfront := filter_front hn hsplit
  have hstart := startOf_join t hdir (Path.isAbsolute_of_isNormal hn)
  unfold owner
  rw [hdrop, hstart]
  cases hvet : vet (dir.join n) with
  | error fault => simp [bind, Except.bind]
  | ok _ =>
    simp only [bind, Except.bind, List.reverse_reverse, hstep, true_and]
    constructor
    · intro howner
      cases hfrom : t.lookupFrom (t.startOf dir) (front.map Step.ofPiece) with
      | error fault =>
        rw [hfrom] at howner
        cases howner
      | ok found =>
        obtain ⟨there, e⟩ := found
        rw [hfrom] at howner
        obtain ⟨hreaches, hentry⟩ := reaches_of_lookupFrom h hfrom
        have hthin := hreaches.thin (thins_filter _)
        rw [hfront] at hthin
        cases e with
        | file content => cases howner
        | link target => cases howner
        | directory =>
          dsimp only at howner
          split at howner
          · cases howner
          · rename_i hlength
            cases howner
            exact ⟨⟨hthin, hentry⟩, Nat.not_lt.1 hlength, rfl⟩
    · rintro ⟨⟨hdenotes, hhere⟩, hlength, rfl⟩
      -- steps that stay are put back in, so the walk must start in a directory
      have hbefore : t.entryAt (t.startOf dir) = some .directory := by
        by_cases hroute : dir.route = []
        · rw [Denotes, hroute] at hdenotes
          cases hdenotes
          exact hhere
        · exact hdenotes.directory hroute
      rw [Denotes, ← hfront] at hdenotes
      rw [lookupFrom_of_reaches h (hdenotes.thicken (thins_filter _) hbefore hhere) hhere]
      dsimp only
      rw [if_neg (Nat.not_lt.2 hlength)]

/-- What is found under a path that ends in a normal name is what stands under that name in the
directory that the path before it denotes, unless that is a link. -/
theorem lookup_join_eq_ok_iff (h : t.IsSound) (hdir : dir ≠ []) {n : Text} (hn : IsNormal n)
    {here : Place} (hdenotes : t.Denotes dir here) (hhere : t.entryAt here = some .directory)
    (hlink : ¬ IsLink (t.entryAt (here ++ [Utf8.encode n]))) :
    t.lookup (dir.join n) = .ok (q, e) ↔
      vet (dir.join n) = .ok () ∧ (Utf8.encode n).length ≤ nameLimit ∧ q = here ++ [Utf8.encode n]
        ∧ t.entryAt q = some e := by
  have hn' := Path.isAbsolute_of_isNormal hn
  obtain ⟨left, hback⟩ := Reaches.append hdenotes hhere
  constructor
  · intro hlookup
    obtain ⟨hq, hentry, hvet⟩ := denotes_of_lookup h hlookup
    rw [Denotes, startOf_join t hdir hn', Path.route_join hn', Path.route_name hn, hback] at hq
    cases hq with
    | fresh _ hlength hnone =>
      rw [hnone] at hentry
      cases hentry
    | into _ hlength _ _ hend =>
      cases hend
      exact ⟨hvet, hlength, rfl, hentry⟩
    | jump _ _ hjump _ => exact absurd ⟨_, hjump⟩ hlink
  · rintro ⟨hvet, hlength, rfl, hentry⟩
    -- the name is the last piece, and steps that stay are put back in before it
    obtain ⟨front, hsplit⟩ := Path.split_join_name dir hn
    have hsteps : Step.ofPath (dir.join n)
        = front.map Step.ofPiece ++ [.into (Utf8.encode n)] := by
      rw [Step.ofPath, hsplit, List.map_append, List.map_singleton,
        (Step.ofPiece_of_some hn.ofPiece?).1]
      rfl
    have hbefore : t.entryAt (t.startOf dir) = some .directory := by
      by_cases hroute : dir.route = []
      · rw [Denotes, hroute] at hdenotes
        cases hdenotes
        exact hhere
      · exact hdenotes.directory hroute
    have hfront : Reaches t linkLimit (t.startOf dir) (front.map Step.ofPiece) here := by
      rw [Denotes, ← filter_front hn hsplit] at hdenotes
      exact hdenotes.thicken (thins_filter _) hbefore hhere
    obtain ⟨left, hback⟩ := hfront.append hhere
    refine lookup_eq_ok_iff.2 ⟨hvet, ?_⟩
    rw [startOf_join t hdir hn', hsteps]
    refine lookupFrom_of_reaches h ((hback _ _).2 ?_) hentry
    exact .into hhere hlength (by simp [hentry]) hlink .here

/-- What is found under a path that ends in a normal name, a link not followed, stands under that
name in the directory that the path before it denotes. -/
theorem lookupLink_join_eq_ok_iff (h : t.IsSound) (hdir : dir ≠ []) {n : Text} (hn : IsNormal n) :
    t.lookupLink (dir.join n) = .ok (q, e) ↔
      ∃ here, (vet (dir.join n) = .ok () ∧ t.Denotes dir here ∧ t.entryAt here = some .directory)
        ∧ (Utf8.encode n).length ≤ nameLimit ∧ q = here ++ [Utf8.encode n]
        ∧ t.entryAt q = some e := by
  have hlast : (Step.ofPath (dir.join n)).getLast? = some (.into (Utf8.encode n)) := by
    obtain ⟨front, hsplit⟩ := Path.split_join_name dir hn
    rw [Step.ofPath, hsplit, List.map_append, List.map_singleton, List.getLast?_concat,
      (Step.ofPiece_of_some hn.ofPiece?).1]
    rfl
  unfold lookupLink
  rw [hlast]
  dsimp only
  constructor
  · intro hlookup
    cases howner : t.owner (dir.join n) with
    | error fault =>
      rw [howner] at hlookup
      cases hlookup
    | ok found =>
      obtain ⟨here, name⟩ := found
      obtain ⟨hhere, hlength, rfl⟩ := (owner_join_eq_ok_iff h hdir hn).1 howner
      simp only [howner, bind, Except.bind] at hlookup
      cases hentry : t.entryAt (here ++ [Utf8.encode n]) with
      | none =>
        rw [hentry] at hlookup
        cases hlookup
      | some e' =>
        rw [hentry] at hlookup
        cases hlookup
        exact ⟨here, hhere, hlength, rfl, hentry⟩
  · rintro ⟨here, hhere, hlength, rfl, hentry⟩
    have howner := (owner_join_eq_ok_iff h hdir hn).2 ⟨hhere, hlength, rfl⟩
    simp only [howner, bind, Except.bind, hentry]

end InterfacePackage.FileTree
