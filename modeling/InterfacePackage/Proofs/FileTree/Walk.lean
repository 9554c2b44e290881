import InterfacePackage.FileTree.Walk
import InterfacePackage.Proofs.FileTree.Lexical
import InterfacePackage.Proofs.FileTree.Proper

/-!
# What a walk finds

Every file on a walk is given by names that entries have, links or not, and no names are found
twice. Without links a walk finds exactly the files below its directory. Main statements:
`isName_of_mem_files`, `pairwise_files` and `files_of_linkless`.
-/

namespace InterfacePackage.FileTree

variable {t : FileTree} {p : Place} {names : List Name}

/-- All names of a place at which something stands are names that entries have. -/
theorem IsProper.isName_of_mem (h : t.IsProper) (hp : t.entryAt p ≠ none) : ∀ n ∈ p, IsName n := by
  generalize hlength : p.length = k
  induction k generalizing p with
  | zero =>
    rw [List.length_eq_zero_iff.1 hlength]
    nofun
  | succ k ih =>
    have hne : p ≠ [] := by
      rintro rfl
      cases hlength
    obtain ⟨above, last, rfl, habove⟩ := h.sound.exists_parent hne hp
    intro n hn
    rcases List.mem_append.1 hn with hn | hn
    · refine ih (by simp [habove]) ?_ n hn
      simpa using hlength
    · rw [List.mem_singleton.1 hn]
      exact h.named above last hp

/-- What a walk finds at an entry below its directory, with links into `depth` directories left. -/
def foundAt (t : FileTree) (fits : List Name → Bool)
    (look : List Name → Except Fault (Place × Entry)) (depth : Nat) (outer : List Frame)
    (frame : Frame) : Place × Entry → List (Except WalkFault (List Name)) := fun (p, e) =>
  let tail := p.drop frame.place.length
  let names := frame.names ++ tail
  match e with
  | .file _ => [.ok names]
  | .directory => if fits names then [] else [.error (.access names .nameTooLong)]
  | .link _ =>
    match look names with
    | .error fault => [.error (.access names fault)]
    | .ok (there, .directory) =>
      let frames := framesTo frame tail ++ outer
      match frames.find? (·.place = there) with
      | some ancestor => [.error (.loop names ancestor.names)]
      | none => filesBelow t fits look depth frames ⟨there, names⟩
    | .ok _ => [.ok names]

/-- A walk goes from entry to entry. -/
theorem filesBelow_succ (t : FileTree) (fits : List Name → Bool)
    (look : List Name → Except Fault (Place × Entry)) (depth : Nat) (outer : List Frame)
    (frame : Frame) : t.filesBelow fits look (depth + 1) outer frame
      = (t.below frame.place).flatMap (foundAt t fits look depth outer frame) := rfl

/-- What is found at an entry is one file there, or found behind a link there, or nothing. -/
theorem foundAt_cases (t : FileTree) (fits : List Name → Bool)
    (look : List Name → Except Fault (Place × Entry)) (depth : Nat) (outer : List Frame)
    (frame : Frame) (q : Place) (e : Entry) :
    (∃ x, foundAt t fits look depth outer frame (q, e) = [x] ∧ ∀ names, x = .ok names →
      e ≠ .directory ∧ names = frame.names ++ q.drop frame.place.length) ∨
    foundAt t fits look depth outer frame (q, e) = [] ∨
    (e ≠ .directory ∧ ∃ frames there, foundAt t fits look depth outer frame (q, e)
      = t.filesBelow fits look depth frames
        ⟨there, frame.names ++ q.drop frame.place.length⟩) := by
  unfold foundAt
  cases e with
  | file content => exact .inl ⟨_, rfl, fun names h => ⟨nofun, (Except.ok.inj h).symm⟩⟩
  | directory =>
    dsimp only
    split
    · exact .inr (.inl rfl)
    · exact .inl ⟨_, rfl, nofun⟩
  | link target =>
    dsimp only
    split
    · exact .inl ⟨_, rfl, nofun⟩
    · split
      · exact .inl ⟨_, rfl, nofun⟩
      · exact .inr (.inr ⟨nofun, _, _, rfl⟩)
    · exact .inl ⟨_, rfl, fun names h => ⟨nofun, (Except.ok.inj h).symm⟩⟩

/-- The names under which a walk finds a file below a directory are names that entries have. -/
theorem isName_of_mem_filesBelow (h : t.IsProper) {fits : List Name → Bool}
    {look : List Name → Except Fault (Place × Entry)} {depth : Nat} {outer : List Frame}
    {frame : Frame} (hframe : ∀ n ∈ frame.names, IsName n)
    (hmem : .ok names ∈ t.filesBelow fits look depth outer frame) : ∀ n ∈ names, IsName n := by
  -- on the directories that links may still lead into
  induction depth generalizing outer frame with
  | zero => cases hmem
  | succ depth ih =>
    rw [filesBelow_succ, List.mem_flatMap] at hmem
    obtain ⟨⟨q, e⟩, hq, hfound⟩ := hmem
    obtain ⟨-, hentry⟩ := mem_below_iff.1 hq
    have htail : ∀ n ∈ frame.names ++ q.drop frame.place.length, IsName n := by
      intro n hn
      rcases List.mem_append.1 hn with hn | hn
      · exact hframe n hn
      · exact h.isName_of_mem (by simp [hentry]) n (List.mem_of_mem_drop hn)
    rcases foundAt_cases t fits look depth outer frame q e with ⟨x, hx, hnames⟩ | hnil |
      ⟨-, frames, there, hbehind⟩
    · rw [hx, List.mem_singleton] at hfound
      rw [(hnames names hfound.symm).2]
      exact htail
    · rw [hnil] at hfound
      cases hfound
    -- a link to a directory is walked under the names that led to it
    · rw [hbehind] at hfound
      exact ih htail hfound

/-- The names under which a walk finds a file are names that entries have. -/
theorem isName_of_mem_files (h : t.IsProper) {root : Path} (hmem : .ok names ∈ t.files root) :
    ∀ n ∈ names, IsName n := by
  unfold files at hmem
  dsimp only at hmem
  split at hmem
  · rw [List.mem_singleton] at hmem
    cases hmem
  · split at hmem
    · rw [List.mem_singleton] at hmem
      cases hmem
    · refine isName_of_mem_filesBelow h (fun n hn => ?_) hmem
      cases hn
    · rw [List.mem_singleton, Except.ok.injEq] at hmem
      rw [hmem]
      nofun

/-! ## Nothing is found twice -/

section

variable {fits : List Name → Bool} {look : List Name → Except Fault (Place × Entry)} {depth : Nat}
  {outer : List Frame} {frame : Frame}

/-- The names found below a directory go on from those that led to it. -/
theorem exists_append_of_mem_filesBelow
    (hmem : .ok names ∈ t.filesBelow fits look depth outer frame) :
    ∃ rest, names = frame.names ++ rest := by
  induction depth generalizing outer frame with
  | zero => cases hmem
  | succ depth ih =>
    rw [filesBelow_succ, List.mem_flatMap] at hmem
    obtain ⟨⟨q, e⟩, -, hfound⟩ := hmem
    rcases foundAt_cases t fits look depth outer frame q e with ⟨x, hx, hnames⟩ | hnil |
      ⟨-, frames, there, hbehind⟩
    · rw [hx, List.mem_singleton] at hfound
      exact ⟨_, (hnames names hfound.symm).2⟩
    · rw [hnil] at hfound
      cases hfound
    · rw [hbehind] at hfound
      obtain ⟨rest, hrest⟩ := ih hfound
      exact ⟨_, hrest.trans (List.append_assoc _ _ _)⟩

/-- So do those found at an entry, which is no directory. -/
theorem exists_append_of_mem_foundAt {q : Place} {e : Entry}
    (hmem : .ok names ∈ foundAt t fits look depth outer frame (q, e)) :
    e ≠ .directory ∧ ∃ rest, names = frame.names ++ (q.drop frame.place.length ++ rest) := by
  rcases foundAt_cases t fits look depth outer frame q e with ⟨x, hx, hnames⟩ | hnil |
    ⟨he, frames, there, hbehind⟩
  · rw [hx, List.mem_singleton] at hmem
    obtain ⟨he, hsame⟩ := hnames names hmem.symm
    exact ⟨he, [], by rw [hsame, List.append_nil]⟩
  · rw [hnil] at hmem
    cases hmem
  · rw [hbehind] at hmem
    obtain ⟨rest, hrest⟩ := exists_append_of_mem_filesBelow hmem
    exact ⟨he, rest, hrest.trans (List.append_assoc _ _ _)⟩

/-- Nothing is below an entry that is no directory, so no names go on from those of two of them. -/
theorem eq_of_append_eq (ht : t.IsSound) {q q' : Place} {e e' : Entry} {rest rest' : List Name}
    (hq : (q, e) ∈ t.below p) (hq' : (q', e') ∈ t.below p) (he : e ≠ .directory)
    (he' : e' ≠ .directory)
    (heq : q.drop p.length ++ rest = q'.drop p.length ++ rest') : q = q' := by
  have hnone : ∀ {q q' : Place} {e e' : Entry}, t.entryAt q = some e → e ≠ .directory →
      t.entryAt q' = some e' → ¬ isBelow q q' = true := by
    intro q q' e e' hentry he hentry' hbelow
    rw [ht.none_below (by simpa [hentry] using he) hbelow] at hentry'
    cases hentry'
  obtain ⟨hbelow, hentry⟩ := mem_below_iff.1 hq
  obtain ⟨hbelow', hentry'⟩ := mem_below_iff.1 hq'
  obtain ⟨n, ns, rfl⟩ := isBelow_iff.1 hbelow
  obtain ⟨m, ms, rfl⟩ := isBelow_iff.1 hbelow'
  rw [List.drop_left, List.drop_left] at heq
  -- the one tail starts the other, with nothing in between
  rcases List.append_eq_append_iff.1 heq with ⟨more, hmore, -⟩ | ⟨more, hmore, -⟩
  · rw [hmore] at hentry' ⊢
    by_cases hnil : more = []
    · rw [hnil, List.append_nil]
    · refine absurd ?_ (hnone hentry he hentry')
      rw [← List.append_assoc]
      exact isBelow_append _ hnil
  · rw [hmore] at hentry ⊢
    by_cases hnil : more = []
    · rw [hnil, List.append_nil]
    · refine absurd ?_ (hnone hentry' he' hentry)
      rw [← List.append_assoc]
      exact isBelow_append _ hnil

/-- No names are found twice below a directory. -/
theorem pairwise_filesBelow (ht : t.IsSound) :
    (t.filesBelow fits look depth outer frame).Pairwise fun x y =>
      ∀ names, x = .ok names → y ≠ .ok names := by
  induction depth generalizing outer frame with
  | zero => exact .nil
  | succ depth ih =>
    rw [filesBelow_succ, List.pairwise_flatMap]
    refine ⟨fun x _ => ?_, (pairwise_below t frame.place).imp_of_mem fun {x y} hx hy hne => ?_⟩
    · rcases foundAt_cases t fits look depth outer frame x.1 x.2 with ⟨y, hy, -⟩ | hnil |
        ⟨-, frames, there, hbehind⟩
      · rw [hy]
        exact List.pairwise_singleton _ _
      · rw [hnil]
        exact .nil
      · rw [hbehind]
        exact ih
    · rintro a ha b hb names rfl rfl
      obtain ⟨hex, rest, hrest⟩ := exists_append_of_mem_foundAt ha
      obtain ⟨hey, rest', hrest'⟩ := exists_append_of_mem_foundAt hb
      have heq := List.append_cancel_left (hrest.symm.trans hrest')
      exact hne (eq_of_append_eq ht hx hy hex hey heq)

/-- No names are found twice on a walk. -/
theorem pairwise_files (ht : t.IsSound) (root : Path) :
    (t.files root).Pairwise fun x y => ∀ names, x = .ok names → y ≠ .ok names := by
  unfold files
  dsimp only
  split
  · exact List.pairwise_singleton _ _
  · split
    · exact List.pairwise_singleton _ _
    · exact pairwise_filesBelow ht
    · exact List.pairwise_singleton _ _

end

/-! ## Walks without links -/

variable {here : Place} {root : Path}

/-- What a walk without links comes upon at a place below its directory. -/
def found (fits : List Name → Bool) (here : Place) :
    Place × Entry → List (Except WalkFault (List Name))
  | (q, .directory) =>
    if fits (q.drop here.length) then [] else [.error (.access (q.drop here.length) .nameTooLong)]
  | (q, _) => [.ok (q.drop here.length)]

/-- Without links a walk only looks at what is below its directory. -/
theorem filesBelow_of_linkless (hlinks : t.IsLinkless) (fits : List Name → Bool)
    (look : List Name → Except Fault (Place × Entry)) (depth : Nat) (here : Place) :
    t.filesBelow fits look (depth + 1) [] ⟨here, []⟩
      = (t.below here).flatMap (found fits here) := by
  rw [filesBelow, List.flatMap_def, List.flatMap_def]
  refine congrArg List.flatten (List.map_congr_left fun x hx => ?_)
  obtain ⟨q, e⟩ := x
  obtain ⟨-, hentry⟩ := mem_below_iff.1 hx
  cases e with
  | file content => rfl
  | directory => rfl
  | link target => exact absurd ⟨target, hentry⟩ (hlinks q)

/-- What is found under names stands under them. -/
theorem eq_append_of_mem_found {fits : List Name → Bool} {q : Place} {e : Entry}
    (hq : isBelow here q = true) (h : .ok names ∈ found fits here (q, e)) :
    q = here ++ names ∧ e ≠ .directory := by
  obtain ⟨n, rest, rfl⟩ := isBelow_iff.1 hq
  cases e with
  | directory =>
    rw [found] at h
    split at h
    · cases h
    · rw [List.mem_singleton] at h
      cases h
  | file content =>
    rw [found, List.mem_singleton, Except.ok.injEq, List.drop_left] at h
    · exact ⟨by rw [h], nofun⟩
    · nofun
  | link target =>
    rw [found, List.mem_singleton, Except.ok.injEq, List.drop_left] at h
    · exact ⟨by rw [h], nofun⟩
    · nofun

/-- Without links exactly the files below a directory are found. -/
theorem mem_flatMap_found_iff (hlinks : t.IsLinkless) {fits : List Name → Bool} :
    .ok names ∈ (t.below here).flatMap (found fits here) ↔
      names ≠ [] ∧ IsFile (t.entryAt (here ++ names)) := by
  rw [List.mem_flatMap]
  constructor
  · rintro ⟨⟨q, e⟩, hq, hfound⟩
    obtain ⟨hbelow, hentry⟩ := mem_below_iff.1 hq
    obtain ⟨rfl, he⟩ := eq_append_of_mem_found hbelow hfound
    refine ⟨?_, ?_⟩
    · rintro rfl
      simp at hbelow
    · cases e with
      | directory => exact absurd rfl he
      | file content => exact ⟨content, hentry⟩
      | link target => exact absurd ⟨target, hentry⟩ (hlinks _)
  · rintro ⟨hnames, content, hentry⟩
    refine ⟨(here ++ names, .file content),
      mem_below_iff.2 ⟨isBelow_append here hnames, hentry⟩, ?_⟩
    rw [found, List.drop_left]
    · exact List.mem_singleton_self _
    · nofun

/-- Nothing fails on such a walk but to enter a directory that takes too long a path. -/
theorem error_mem_flatMap_found_iff {fits : List Name → Bool} {fault : WalkFault} :
    .error fault ∈ (t.below here).flatMap (found fits here) ↔
      ∃ names, names ≠ [] ∧ t.entryAt (here ++ names) = some .directory ∧ fits names = false ∧
        fault = .access names .nameTooLong := by
  rw [List.mem_flatMap]
  constructor
  · rintro ⟨⟨q, e⟩, hq, hfound⟩
    obtain ⟨hbelow, hentry⟩ := mem_below_iff.1 hq
    obtain ⟨n, rest, rfl⟩ := isBelow_iff.1 hbelow
    cases e with
    | directory =>
      rw [found, List.drop_left] at hfound
      split at hfound
      · cases hfound
      · rename_i hfits
        cases List.mem_singleton.1 hfound
        exact ⟨n :: rest, List.cons_ne_nil n rest, hentry, Bool.not_eq_true _ ▸ hfits, rfl⟩
    | file content => cases List.mem_singleton.1 hfound
    | link target => cases List.mem_singleton.1 hfound
  · rintro ⟨names, hnames, hentry, hfits, rfl⟩
    refine ⟨(here ++ names, .directory), mem_below_iff.2 ⟨isBelow_append here hnames, hentry⟩, ?_⟩
    rw [found, List.drop_left, hfits]
    exact List.mem_singleton_self _

/-- Without links a path names what it denotes. -/
theorem lookupLink_of_lookup (ht : t.IsSound) (hlinks : t.IsLinkless) {path : Path} {q : Place}
    {e : Entry} (hlookup : t.lookup path = .ok (q, e)) : t.lookupLink path = .ok (q, e) := by
  obtain ⟨hvet, hfrom⟩ := lookup_eq_ok_iff.1 hlookup
  obtain ⟨hreaches, hentry⟩ := reaches_of_lookupFrom ht hfrom
  unfold lookupLink
  split
  · rename_i n hlast
    obtain ⟨steps, hsteps⟩ := List.getLast?_eq_some_iff.1 hlast
    obtain ⟨front, tail, hsplit, hfront, htail⟩ := List.map_eq_append_iff.1 hsteps
    obtain ⟨last, rfl, hpiece⟩ := List.map_eq_singleton_iff.1 htail
    -- the name is the last piece, so no empty ones have to be dropped
    have hdrop : (Text.split '/' path).reverse.dropWhile (· = []) = last :: front.reverse := by
      have hne : last ≠ [] := by
        intro hnil
        rw [hnil] at hpiece
        cases hpiece
      rw [hsplit, List.reverse_append, List.reverse_singleton, List.singleton_append,
        List.dropWhile_cons_of_neg (by simpa using hne)]
    rw [hsteps] at hreaches
    obtain ⟨above, habove, hdirectory⟩ := hreaches.split (List.cons_ne_nil _ _)
    obtain ⟨left, hback⟩ := habove.append hdirectory
    have hown : q = above ++ [n] ∧ n.length ≤ nameLimit := by
      cases (hback _ _).1 hreaches with
      | fresh _ _ hnone =>
        rw [hnone] at hentry
        cases hentry
      | into _ hlength _ _ hend =>
        cases hend
        exact ⟨rfl, hlength⟩
      | jump _ _ hlink _ => exact absurd ⟨_, hlink⟩ (hlinks _)
    have howner : t.owner path = .ok (above, some n) := by
      unfold owner
      rw [hvet, hdrop]
      simp only [bind, Except.bind, List.reverse_reverse, hfront, hpiece,
        lookupFrom_of_reaches ht habove hdirectory, if_neg (Nat.not_lt.2 hown.2)]
    rw [howner]
    simp only [bind, Except.bind, ← hown.1, hentry]
  · exact hlookup

/-- A walk without links comes upon what is below the directory that it starts from. -/
theorem files_eq_flatMap (hlinks : t.IsLinkless) {x : Place × Entry}
    (hlink : t.lookupLink root = .ok x) (hlookup : t.lookup root = .ok (here, .directory)) :
    t.files root = (t.below here).flatMap (found (fits root) here) := by
  unfold files
  dsimp only
  rw [hlink, hlookup]
  exact filesBelow_of_linkless hlinks _ _ _ here

/-- A walk without links that does not fail finds the files below its directory. -/
theorem files_of_linkless (hlinks : t.IsLinkless) {all : List (List Name)}
    (hfiles : t.files root = all.map .ok) (hlookup : t.lookup root = .ok (here, .directory)) :
    names ∈ all ↔ names ≠ [] ∧ IsFile (t.entryAt (here ++ names)) := by
  have hwalk : t.files root = (t.below here).flatMap (found (fits root) here) := by
    cases hlink : t.lookupLink root with
    | error fault =>
      unfold files at hfiles
      dsimp only at hfiles
      rw [hlink] at hfiles
      cases all <;> cases hfiles
    | ok _ => exact files_eq_flatMap hlinks hlink hlookup
  rw [hwalk] at hfiles
  have hmem : names ∈ all ↔ .ok names ∈ (t.below here).flatMap (found (fits root) here) := by
    rw [hfiles, List.mem_map]
    exact ⟨fun h => ⟨names, h, rfl⟩, fun ⟨other, hother, heq⟩ => Except.ok.inj heq ▸ hother⟩
  rw [hmem, mem_flatMap_found_iff hlinks]

/-- A walk that starts at something else than a directory finds nothing but that. -/
theorem files_of_other {all : List (List Name)} (hfiles : t.files root = all.map .ok) {e : Entry}
    (hlookup : t.lookup root = .ok (here, e)) (he : e ≠ .directory) : all = [[]] := by
  unfold files at hfiles
  dsimp only at hfiles
  cases hlink : t.lookupLink root with
  | error fault =>
    rw [hlink] at hfiles
    cases all <;> cases hfiles
  | ok _ =>
    rw [hlink, hlookup] at hfiles
    cases e with
    | directory => exact absurd rfl he
    | _ =>
      -- the one file found has no names below the start
      have hall : [[]].map .ok = all.map (.ok : List Name → Except WalkFault (List Name)) := hfiles
      exact ((List.map_inj_right fun _ _ h => Except.ok.inj h).1 hall).symm

/-- A walk that does not fail starts at something. -/
theorem exists_lookup_of_files {all : List (List Name)} (hfiles : t.files root = all.map .ok) :
    ∃ here e, t.lookup root = .ok (here, e) := by
  cases hlookup : t.lookup root with
  | ok found => exact ⟨found.1, found.2, rfl⟩
  | error fault =>
    unfold files at hfiles
    dsimp only at hfiles
    cases hlink : t.lookupLink root with
    | error fault' =>
      rw [hlink] at hfiles
      cases all <;> cases hfiles
    | ok _ =>
      rw [hlink, hlookup] at hfiles
      cases all <;> cases hfiles

end InterfacePackage.FileTree
