import InterfacePackage.Proofs.FileTree.Agree
import InterfacePackage.Proofs.FileTree.Endpoint
import Mathlib.Order.Defs.Unbundled

/-!
# Trees on their way to another

A tree that holds nothing but what another one holds may still become that one. A path that does not
climb and finds something in the whole finds the same in the part, or else what is missing there. So
the directories that the whole has under a path can be made in the part, and something can be put
under a path once the directory around it is there. Main statements: `IsPartOf.lookup_eq`,
`IsPartOf.makeDirectories` and `IsPartOf.place`.
-/

namespace InterfacePackage

/-! ## Paths that end in a name -/

/-- A path to the root, or one whose last piece goes to a name. -/
def Path.EndsInName (p : Path) : Prop :=
  p.route = [] ∨ ∃ front last n, Text.split '/' p = front ++ [last] ∧ Step.ofPiece last = .into n

/-- A piece that stands for something goes up or to a name. -/
theorem Step.ofPiece_of_not_idle {piece : Text} (h : Path.isIdle piece = false) :
    ofPiece piece = .up ∨ ∃ n, ofPiece piece = .into n := by
  obtain ⟨c, hc⟩ := Option.ne_none_iff_exists'.1 fun hnone => by
    rw [Path.isIdle_iff.2 hnone] at h
    cases h
  obtain ⟨hstep, hstay⟩ := ofPiece_of_some hc
  cases hinto : ofPiece piece with
  | into n => exact .inr ⟨n, rfl⟩
  | up => exact .inl rfl
  | stay => exact absurd (hstep.symm.trans hinto) hstay

/-- The path above an absolute one ends in a name if it does not climb. -/
theorem Path.endsInName_of_parent {p above : Path} (habs : p.isAbsolute = true)
    (h : p.parent = some above) (hup : .up ∉ above.route) : above.EndsInName := by
  unfold parent at h
  split at h
  · cases h
  · rename_i body
    split at h
    · cases h
    · rename_i last front hdrop
      cases h
      obtain ⟨between, behind, hsplit, -, -, -⟩ := eq_of_dropWhile_idle hdrop
      have hslash : ∀ piece ∈ (front.dropWhile isIdle).reverse, '/' ∉ piece := fun piece hpiece =>
        Text.notMem_of_mem_split (t := body) (by simp [hsplit, hpiece])
      cases hpieces : front.dropWhile isIdle with
      | nil => exact .inl rfl
      | cons piece rest =>
        right
        rw [hpieces, List.reverse_cons] at hslash
        have hjoined : Text.split '/' ('/' :: Text.join ['/'] (piece :: rest).reverse)
            = ([] :: rest.reverse) ++ [piece] := by
          rw [List.reverse_cons, ← List.nil_append ('/' :: _), Text.split_append,
            Text.split_join (by simp) hslash]
          rfl
        -- the piece that is last now is not idle, and it does not climb
        have hfront : front.reverse.reverse.dropWhile isIdle = piece :: rest := by
          rw [List.reverse_reverse, hpieces]
        obtain ⟨-, -, -, -, -, hidle⟩ := eq_of_dropWhile_idle hfront
        refine ⟨[] :: rest.reverse, piece, ?_⟩
        obtain hclimbs | ⟨n, hinto⟩ := Step.ofPiece_of_not_idle hidle
        · refine absurd ?_ hup
          rw [← filter_ofPath, Step.ofPath, hpieces, hjoined, List.map_append, List.filter_append,
            List.mem_append]
          exact .inr (by simp [hclimbs])
        · exact ⟨n, hjoined, hinto⟩
  · rename_i hne hslash
    cases p with
    | nil => exact absurd rfl hne
    | cons x p =>
      rw [isAbsolute_cons, decide_eq_true_eq] at habs
      exact absurd (by rw [habs]) (hslash p)

namespace FileTree

variable {t t' u : FileTree} {path above : Path} {p q : Place} {e : Entry}

/-! ## Walks in a part -/

/-- All that the first tree holds, the second one holds as well. -/
def IsPartOf (t u : FileTree) : Prop := ∀ q e, t.entryAt q = some e → u.entryAt q = some e

instance : IsPreorder FileTree IsPartOf where
  refl _ _ _ h := h
  trans _ _ _ h h' q e hq := h' q e (h q e hq)

namespace IsPartOf

theorem entryAt_eq (h : IsPartOf t u) (hq : t.entryAt q ≠ none) : t.entryAt q = u.entryAt q := by
  obtain ⟨e, he⟩ := Option.ne_none_iff_exists'.1 hq
  rw [he, h q e he]

/-- What the whole has somewhere can be put there. -/
theorem put (h : IsPartOf t u) (hq : u.entryAt q = some e) (hne : q ≠ []) :
    IsPartOf (t.put q e) u := by
  intro p e' hp
  by_cases hsame : p = q
  · subst hsame
    rwa [entryAt_put_self t hne, ← hq] at hp
  · rw [entryAt_put_of_ne t _ hsame] at hp
    exact h p e' hp

variable (h : IsPartOf t u) (ht : t.IsSound) (hlinks : u.IsLinkless)

include ht hlinks

omit h in
/-- Steps that lead on from a name that is missing meet with nothing on the way. Nothing is where
they lead in the whole, and if it is no directory that is there, nothing is around it either. -/
theorem follow_of_missing {links : Nat} {here there : Place} {n : Name} {rest : List Step}
    (hhere : t.entryAt here = some .directory) (hn : n.length ≤ nameLimit)
    (hentry : t.entryAt (here ++ [n]) = none) (hne : rest ≠ []) (hup : .up ∉ rest)
    (hrest : Reaches u links (here ++ [n]) rest there) :
    t.follow links here (.into n :: rest) = .error .notFound ∧ t.entryAt there = none ∧
      (u.entryAt there = some .directory ∨ t.entryAt there.dropLast = none) := by
  have hbelow : ∀ ms, t.entryAt (here ++ [n] ++ ms) = none := fun ms => by
    by_cases hms : ms = []
    · rwa [hms, List.append_nil]
    · exact ht.none_below (by simp [hentry]) (isBelow_append _ hms)
  obtain ⟨names, hplace⟩ := exists_append_of_foldl_move hup (here ++ [n])
  have hfollow : t.follow links here (.into n :: rest) = .error .notFound := by
    rw [follow_eq, walk, if_pos hhere]
    simp only [if_neg (Nat.not_lt.2 hn), hentry, if_neg hne]
  rw [Reaches.place_eq hlinks hrest, hplace]
  refine ⟨hfollow, hbelow names, ?_⟩
  by_cases hnames : names = []
  · left
    rw [hnames, List.append_nil]
    exact hrest.directory hne
  · right
    rw [List.dropLast_append_of_ne_nil hnames]
    exact hbelow names.dropLast

include h

/-- Steps that lead to something in the whole lead to the same place in the part, or they meet with
nothing on the way. Then nothing is there, and if it is no directory that they lead to, nothing is
around it either. -/
theorem follow {links : Nat} {here there : Place} {steps : List Step} (hup : .up ∉ steps)
    (hreaches : Reaches u links here steps there) (hthere : u.entryAt there ≠ none)
    (hhere : t.entryAt here = some .directory) :
    t.follow links here steps = .ok there ∨
      t.follow links here steps = .error .notFound ∧ t.entryAt there = none ∧
        (u.entryAt there = some .directory ∨ t.entryAt there.dropLast = none) := by
  induction hreaches with
  | here =>
    left
    rw [follow_eq, walk]
  | stay _ _ ih =>
    rw [List.mem_cons, not_or] at hup
    have hrest := ih hup.2 hthere hhere
    rw [follow_eq] at hrest ⊢
    rwa [walk, if_pos hhere]
  | up _ _ _ => exact absurd List.mem_cons_self hup
  | fresh _ _ hnone => exact absurd hnone hthere
  | @into links here there n rest _ hn _ _ hrest ih =>
    rw [List.mem_cons, not_or] at hup
    have hwalk : t.follow links here (.into n :: rest)
        = t.walk (t.jumpWith links) 0 here (.into n :: rest) := follow_eq t links here _
    cases hentry : t.entryAt (here ++ [n]) with
    | none =>
      by_cases hnil : rest = []
      · subst hnil
        cases hrest
        left
        rw [hwalk, walk, if_pos hhere]
        simp only [if_neg (Nat.not_lt.2 hn), hentry, if_true]
      · exact .inr (follow_of_missing ht hlinks hhere hn hentry hnil hup.2 hrest)
    | some e =>
      cases e with
      | directory =>
        have hnext := ih hup.2 hthere hentry
        rw [follow_eq] at hnext
        rwa [hwalk, walk_into_directory ht hhere hn hentry]
      | file content =>
        -- nothing leads on from a file
        have hnil : rest = [] := Classical.byContradiction fun hne => by
          have hdirectory := hrest.directory hne
          rw [h _ _ hentry] at hdirectory
          cases hdirectory
        subst hnil
        cases hrest
        left
        rw [hwalk, walk, if_pos hhere]
        simp only [if_neg (Nat.not_lt.2 hn), hentry]
        rw [walk]
      | link target => exact absurd ⟨target, h _ _ hentry⟩ (hlinks _)
  | jump _ _ hlink _ _ => exact absurd ⟨_, hlink⟩ (hlinks _)

variable (hu : u.IsSound)

include hu

/-- Steps that find something in the whole find the same in the part, if it is there yet. -/
theorem lookupFrom_eq {here : Place} {steps : List Step} (hup : .up ∉ steps)
    (hhere : t.entryAt here = some .directory) (hlookup : u.lookupFrom here steps = .ok (q, e)) :
    t.lookupFrom here steps = if t.entryAt q = none then .error .notFound else .ok (q, e) := by
  obtain ⟨hreaches, hentry⟩ := reaches_of_lookupFrom hu hlookup
  unfold lookupFrom
  rcases h.follow ht hlinks hup hreaches (by simp [hentry]) hhere with hok | ⟨herror, hnone, -⟩
  · simp only [hok, bind, Except.bind]
    split
    · rename_i e' he'
      have hsame := h q e' he'
      rw [hentry] at hsame
      cases hsame
      rw [if_neg (by simp [he'])]
    · rename_i hnone
      rw [if_pos hnone]
  · simp only [herror, bind, Except.bind, if_pos hnone]

variable (habs : path.isAbsolute = true) (hup : .up ∉ path.route)

include habs hup

/-- A path that finds something in the whole finds the same in the part, if it is there yet. -/
theorem lookup_eq (hlookup : u.lookup path = .ok (q, e)) :
    t.lookup path = if t.entryAt q = none then .error .notFound else .ok (q, e) := by
  obtain ⟨hvet, hfrom⟩ := lookup_eq_ok_iff.1 hlookup
  unfold FileTree.lookup
  rw [startOf_of_isAbsolute u habs] at hfrom
  rw [hvet, startOf_of_isAbsolute t habs,
    h.lookupFrom_eq ht hlinks hu (Path.up_notMem_ofPath hup) (entryAt_root t) hfrom]
  rfl

/-- So it finds what is there. -/
theorem lookup (hlookup : u.lookup path = .ok (q, e)) (hq : t.entryAt q ≠ none) :
    t.lookup path = .ok (q, e) := by
  rw [h.lookup_eq ht hlinks hu habs hup hlookup, if_neg hq]

/-- A path to a file of the whole leads to its place once the directory around it is there. -/
theorem place {content : Bytes} (hlookup : u.lookup path = .ok (q, .file content))
    (habove : t.entryAt q.dropLast = some .directory) : t.place path = .ok q := by
  obtain ⟨hvet, hfrom⟩ := lookup_eq_ok_iff.1 hlookup
  obtain ⟨hreaches, hentry⟩ := reaches_of_lookupFrom hu hfrom
  rw [startOf_of_isAbsolute u habs] at hreaches
  refine place_eq_ok_iff.2 ⟨hvet, ?_⟩
  rw [startOf_of_isAbsolute t habs]
  refine (h.follow ht hlinks (Path.up_notMem_ofPath hup) hreaches (by simp [hentry])
    (entryAt_root t)).resolve_right ?_
  rintro ⟨-, -, hdirectory | hnone⟩
  · rw [hentry] at hdirectory
    cases hdirectory
  · rw [habove] at hnone
    cases hnone

/-- So the file can be put there. -/
theorem puts {content : Bytes} (hlookup : u.lookup path = .ok (q, .file content))
    (habove : t.entryAt q.dropLast = some .directory) :
    Puts t q (.file content) (t.put q (.file content)) := by
  have hdenotes := denotes_of_place ht (h.place ht hlinks hu habs hup hlookup habove)
  obtain ⟨-, hentry, -⟩ := denotes_of_lookup hu hlookup
  refine hdenotes.puts ht habs fun hdirectory => ?_
  rw [h _ _ hdirectory] at hentry
  cases hentry

/-- It can be written. -/
theorem write {content : Bytes} (hlookup : u.lookup path = .ok (q, .file content))
    (habove : t.entryAt q.dropLast = some .directory) :
    t.write path content = .ok (t.put q (.file content)) := by
  have hplace := h.place ht hlinks hu habs hup hlookup habove
  have hputs := h.puts ht hlinks hu habs hup hlookup habove
  unfold FileTree.write
  simp only [hplace, bind, Except.bind]
  split
  · rename_i hdirectory
    exact absurd hdirectory hputs.not_directory
  · rfl

/-- And it can be copied there from elsewhere. -/
theorem copy {source : Path} {there : Place} {content : Bytes}
    (hsource : t.lookup source = .ok (there, .file content))
    (hlookup : u.lookup path = .ok (q, .file content))
    (habove : t.entryAt q.dropLast = some .directory) (hne : q ≠ there) :
    t.copy source path = .ok (t.put q (.file content)) := by
  have hplace := h.place ht hlinks hu habs hup hlookup habove
  have hputs := h.puts ht hlinks hu habs hup hlookup habove
  unfold FileTree.copy
  simp only [hsource, hplace, bind, Except.bind]
  split
  · rename_i hdirectory
    exact absurd hdirectory hputs.not_directory
  · rw [if_neg hne]

/-! ## Names found one by one -/

section

variable {front : List Text} {last : Text} {n : Name}
  (hsplit : Text.split '/' path = front ++ [last]) (hlast : Step.ofPiece last = .into n)

include hsplit hlast

omit h ht hup in
/-- What a path finds that ends in a name is found under that name in a directory. -/
theorem lookup_split (hlookup : u.lookup path = .ok (q, e)) :
    ∃ above, q = above ++ [n] ∧ n.length ≤ nameLimit ∧ vet path = .ok () ∧
      u.lookupFrom [] (front.map Step.ofPiece) = .ok (above, .directory) := by
  obtain ⟨hvet, hfrom⟩ := lookup_eq_ok_iff.1 hlookup
  obtain ⟨hreaches, hentry⟩ := reaches_of_lookupFrom hu hfrom
  rw [startOf_of_isAbsolute u habs, Step.ofPath, hsplit, List.map_append, List.map_singleton, hlast]
    at hreaches
  obtain ⟨above, hfront, habove⟩ := hreaches.split (List.cons_ne_nil _ _)
  obtain ⟨left, hback⟩ := hfront.append habove
  have hfound := lookupFrom_of_reaches hu hfront habove
  cases (hback _ _).1 hreaches with
  | fresh _ hn hnone =>
    rw [hnone] at hentry
    cases hentry
  | into _ hn _ _ hend =>
    cases hend
    exact ⟨above, rfl, hn, hvet, hfound⟩
  | jump _ _ hlink _ => exact absurd ⟨_, hlink⟩ (hlinks _)

/-- A directory of the whole can be made once the one around it is there, unless it is there
itself. -/
theorem makeDirectory_eq (hlookup : u.lookup path = .ok (q, .directory)) :
    t.makeDirectory path =
      if t.entryAt q.dropLast = none then .error .notFound
      else if t.entryAt q = none then .ok (t.put q .directory)
      else .error .alreadyExists := by
  obtain ⟨above, rfl, hn, hvet, hfront⟩ :=
    lookup_split hlinks hu habs hsplit hlast hlookup
  have hdrop : (Text.split '/' path).reverse.dropWhile (· = []) = last :: front.reverse := by
    rw [hsplit, List.reverse_append, List.reverse_singleton, List.singleton_append,
      List.dropWhile_cons_of_neg]
    rintro hnil
    rw [of_decide_eq_true hnil] at hlast
    cases hlast
  have hupFront : .up ∉ front.map Step.ofPiece := fun hmem => by
    refine Path.up_notMem_ofPath hup ?_
    rw [Step.ofPath, hsplit, List.map_append]
    exact List.mem_append_left _ hmem
  have hfrom := h.lookupFrom_eq ht hlinks hu hupFront (entryAt_root t) hfront
  unfold makeDirectory owner
  rw [hdrop, hvet, startOf_of_isAbsolute t habs]
  simp only [bind, Except.bind, List.reverse_reverse, hfrom, List.dropLast_concat]
  by_cases habove : t.entryAt above = none
  · rw [if_pos habove, if_pos habove]
  · rw [if_neg habove, if_neg habove]
    simp only [hlast, if_neg (Nat.not_lt.2 hn)]
    cases hentry : t.entryAt (above ++ [n]) with
    | none => rw [if_pos rfl]
    | some e => rw [if_neg (Option.some_ne_none e)]

end

end IsPartOf

/-! ## Directories made -/

/-- What is around the end of a path that does not climb is found under the path above. -/
theorem lookup_of_parent (hu : u.IsSound) (hlinks : u.IsLinkless) (habs : path.isAbsolute = true)
    (hup : .up ∉ path.route) (hparent : path.parent = some above)
    (hlookup : u.lookup path = .ok (q, e)) : u.lookup above = .ok (q.dropLast, .directory) := by
  obtain ⟨hdenotes, hentry, hvet⟩ := denotes_of_lookup hu hlookup
  obtain ⟨habsAbove, -, n, hroute⟩ := route_of_parent habs hup hparent
  rw [Denotes, startOf_of_isAbsolute u habs, hroute] at hdenotes
  obtain ⟨middle, hfront, hmiddle⟩ := hdenotes.split (List.cons_ne_nil _ _)
  obtain ⟨left, hback⟩ := hfront.append hmiddle
  have hq : q = middle ++ [n] :=
    @Reaches.names _ _ _ _ [n] (fun r _ => hlinks r) ((hback _ _).1 hdenotes)
  have hvetAbove : vet above = .ok () := by
    obtain ⟨rest, -, rfl⟩ := Path.exists_append_of_parent hparent
    obtain ⟨hzero, hlength, -⟩ := vet_eq_ok_iff.1 hvet
    rw [Utf8.encode_append, List.length_append] at hlength
    rw [List.mem_append, not_or] at hzero
    exact vet_eq_ok_iff.2 ⟨hzero.1, by omega, Path.ne_nil_of_isAbsolute habsAbove⟩
  rw [← startOf_of_isAbsolute u habsAbove] at hfront
  rw [hq, List.dropLast_concat]
  exact lookup_of_denotes hu hvetAbove hfront hmiddle

/-- If what is around a directory is missing, it is made first. -/
theorem outcome_makeChain_of_notFound {levels : Nat} (hpath : path ≠ [])
    (hmake : t.makeDirectory path = .error .notFound) (hparent : path.parent = some above) :
    outcome (makeChain (levels + 1) path) t
      = outcome (makeChain levels above >>= fun _ => ensureDirectory path) t := by
  rw [makeChain, if_neg hpath, outcome_bind, outcome_get]
  simp only [hmake, hparent]

namespace IsPartOf

variable (h : IsPartOf t u) (ht : t.IsProper) (hu : u.IsSound) (hlinks : u.IsLinkless)
  (habs : path.isAbsolute = true) (hup : .up ∉ path.route) (hends : path.EndsInName)
  (hlookup : u.lookup path = .ok (q, .directory))

include h ht hu hlinks habs hup hends hlookup

/-- Where nothing is around a directory of the whole, it cannot be made before the one above it. -/
theorem makeDirectory_of_missing (habove : t.entryAt q.dropLast = none) :
    t.makeDirectory path = .error .notFound ∧ ∃ above, path.parent = some above := by
  obtain hroute | ⟨front, last, n, hsplit, hlast⟩ := hends
  · obtain ⟨hdenotes, -, -⟩ := denotes_of_lookup hu hlookup
    rw [Denotes, hroute, startOf_of_isAbsolute u habs] at hdenotes
    cases hdenotes
    rw [List.dropLast_nil, entryAt_root] at habove
    cases habove
  · constructor
    · rw [h.makeDirectory_eq ht.sound hlinks hu habs hup hsplit hlast hlookup, if_pos habove]
    · refine Option.ne_none_iff_exists'.1 fun hnone => ?_
      have hroute := Path.route_of_parent_eq_none habs hnone
      rw [← Path.filter_ofPath, Step.ofPath, hsplit, List.map_append, List.filter_append] at hroute
      simp [hlast] at hroute

/-- A directory of the whole can be made sure of once the one around it is there. -/
theorem ensureDirectory (habove : t.entryAt q.dropLast ≠ none) :
    ∃ t', outcome (ensureDirectory path) t = (.ok (), t') ∧ IsPartOf t' u ∧
      t'.entryAt q = some .directory := by
  obtain ⟨hdenotes, hentry, -⟩ := denotes_of_lookup hu hlookup
  rw [outcome_ensureDirectory]
  by_cases hq : t.entryAt q = none
  · obtain hroute | ⟨front, last, n, hsplit, hlast⟩ := hends
    · rw [Denotes, hroute, startOf_of_isAbsolute u habs] at hdenotes
      cases hdenotes
      rw [entryAt_root] at hq
      cases hq
    · rw [h.makeDirectory_eq ht.sound hlinks hu habs hup hsplit hlast hlookup, if_neg habove,
        if_pos hq]
      have hne : q ≠ [] := by
        rintro rfl
        rw [entryAt_root] at hq
        cases hq
      exact ⟨_, rfl, h.put hentry hne, entryAt_put_self t hne _⟩
  -- what is there already is found there, and cannot be made anew
  · have hfound := h.lookup ht.sound hlinks hu habs hup hlookup hq
    have hdirectory : t.entryAt q = some .directory := by rw [h.entryAt_eq hq, hentry]
    refine ⟨t, ?_, h, hdirectory⟩
    cases hmake : t.makeDirectory path with
    | ok t' =>
      obtain ⟨q', hnew, hnone, -, hputs⟩ := makeDirectory_spec ht.sound hmake
      have hold := (denotes_of_lookup ht.sound hfound).1.mono hputs.start hputs.carries hdirectory
      rw [hnew.unique (hputs.proper ht).sound hold] at hnone
      exact absurd hnone hq
    | error fault =>
      have hisDirectory : t.isDirectory path = true := by rw [isDirectory, hfound]
      dsimp only
      rw [if_pos hisDirectory]

/-- So can a chain of them that is long enough. -/
theorem makeChain {levels : Nat} (hlevels : path.length ≤ levels) :
    ∃ t', outcome (makeChain levels path) t = (.ok (), t') ∧ IsPartOf t' u ∧
      t'.entryAt q = some .directory := by
  induction levels generalizing path q with
  | zero =>
    exact absurd (List.length_eq_zero_iff.1 (Nat.le_zero.1 hlevels))
      (Path.ne_nil_of_isAbsolute habs)
  | succ levels ih =>
    have hpath := Path.ne_nil_of_isAbsolute habs
    have hchain : ∀ above, path.parent = some above →
        ∃ t', outcome (FileTree.makeChain levels above >>= fun _ => FileTree.ensureDirectory path) t
          = (.ok (), t') ∧ IsPartOf t' u ∧ t'.entryAt q = some .directory := by
      intro above hparent
      obtain ⟨habsAbove, hupAbove, -⟩ := route_of_parent habs hup hparent
      obtain ⟨t₁, hrun, hpart, hdirectory⟩ := ih habsAbove hupAbove
        (Path.endsInName_of_parent habs hparent hupAbove)
        (lookup_of_parent hu hlinks habs hup hparent hlookup)
        (Nat.le_of_lt_succ (Nat.lt_of_lt_of_le (Path.length_lt_of_parent hparent) hlevels))
      have hproper := (makeChain_builds ht levels above).proper
      rw [hrun] at hproper
      rw [outcome_bind, hrun]
      exact hpart.ensureDirectory hproper hu hlinks habs hup hends hlookup (by simp [hdirectory])
    by_cases habove : t.entryAt q.dropLast = none
    · obtain ⟨hmake, above, hparent⟩ :=
        h.makeDirectory_of_missing ht hu hlinks habs hup hends hlookup habove
      rw [outcome_makeChain_of_notFound hpath hmake hparent]
      exact hchain above hparent
    · rcases outcome_makeChain_succ levels path t hpath with hend | ⟨above, hparent, hrun⟩
      · rw [hend]
        exact h.ensureDirectory ht hu hlinks habs hup hends hlookup habove
      · rw [hrun]
        exact hchain above hparent

/-- All directories above one of the whole can be made with it. -/
theorem makeDirectories :
    ∃ t', outcome (makeDirectories path) t = (.ok (), t') ∧ IsPartOf t' u ∧
      t'.entryAt q = some .directory :=
  h.makeChain ht hu hlinks habs hup hends hlookup (Nat.le_succ _)

end IsPartOf

end FileTree

end InterfacePackage
