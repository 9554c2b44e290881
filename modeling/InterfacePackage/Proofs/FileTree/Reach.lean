import InterfacePackage.FileTree.Resolve
import InterfacePackage.Proofs.FileTree.Entries

/-!
# Where steps lead

Successful walks as a relation: `Reaches t links here steps there` says that the steps lead from
`here` to `there` through at most `links` links. It has one rule for each kind of step, so that
facts about resolution are inductions over it. Main statements: `follow_eq_ok_iff` (the relation is
what the walk computes), `Reaches.mono` (a walk to something that stands there does not notice what
is added elsewhere) and `Reaches.append` (a walk goes on from where a part of it has led).
-/

namespace InterfacePackage.FileTree

/-- Whether a symbolic link stands somewhere. -/
def IsLink (e : Option Entry) : Prop := ∃ target, e = some (.link target)

/-- Whether a regular file stands somewhere. -/
def IsFile (e : Option Entry) : Prop := ∃ content, e = some (.file content)

/-- The steps lead from one place to another. The last name may be one that nothing has yet. -/
inductive Reaches (t : FileTree) : Nat → Place → List Step → Place → Prop where
  /-- No steps lead nowhere else. -/
  | here {links : Nat} {here : Place} : Reaches t links here [] here
  | stay {links : Nat} {here there : Place} {rest : List Step}
      (hhere : t.entryAt here = some .directory) (hrest : Reaches t links here rest there) :
      Reaches t links here (.stay :: rest) there
  | up {links : Nat} {here there : Place} {rest : List Step}
      (hhere : t.entryAt here = some .directory)
      (hrest : Reaches t links here.dropLast rest there) :
      Reaches t links here (.up :: rest) there
  /-- To a name that nothing has. -/
  | fresh {links : Nat} {here : Place} {n : Name}
      (hhere : t.entryAt here = some .directory) (hn : n.length ≤ nameLimit)
      (hnone : t.entryAt (here ++ [n]) = none) :
      Reaches t links here [.into n] (here ++ [n])
  /-- To a file or into a directory. -/
  | into {links : Nat} {here there : Place} {n : Name} {rest : List Step}
      (hhere : t.entryAt here = some .directory) (hn : n.length ≤ nameLimit)
      (hsome : t.entryAt (here ++ [n]) ≠ none) (hlink : ¬ IsLink (t.entryAt (here ++ [n])))
      (hrest : Reaches t links (here ++ [n]) rest there) :
      Reaches t links here (.into n :: rest) there
  /-- Through a link, from its target on. -/
  | jump {links : Nat} {here there : Place} {n : Name} {target : Path} {rest : List Step}
      (hhere : t.entryAt here = some .directory) (hn : n.length ≤ nameLimit)
      (hlink : t.entryAt (here ++ [n]) = some (.link target))
      (hrest : Reaches t links (if target.isAbsolute then [] else here)
        (Step.ofPath target ++ rest) there) :
      Reaches t (links + 1) here (.into n :: rest) there

variable {t : FileTree}

/-! ## The relation is what a walk computes -/

/-- How a walk goes on behind a link. -/
def jumpWith (t : FileTree) : Nat → Path → Place → List Step → Except Fault Place
  | 0 => fun _ _ _ => .error .tooManyLinks
  | links + 1 => fun target here rest =>
    t.follow links (if target.isAbsolute then [] else here) (Step.ofPath target ++ rest)

/-- Following steps is walking with that way to go on. -/
theorem follow_eq (t : FileTree) (links : Nat) (here : Place) (steps : List Step) :
    t.follow links here steps = t.walk (t.jumpWith links) 0 here steps := by
  cases links <;> rfl

/-- A walk to a place takes the steps to it. -/
theorem reaches_of_walk (h : t.IsSound) {links : Nat}
    (hjump : ∀ target here rest there, t.jumpWith links target here rest = .ok there →
      ∃ fewer, links = fewer + 1 ∧ Reaches t fewer (if target.isAbsolute then [] else here)
        (Step.ofPath target ++ rest) there)
    {here there : Place} {steps : List Step}
    (hwalk : t.walk (t.jumpWith links) 0 here steps = .ok there) :
    Reaches t links here steps there := by
  -- on the steps, with what a walk does behind a link given by `hjump`
  induction steps generalizing here with
  | nil =>
    simp only [walk, Except.ok.injEq] at hwalk
    subst hwalk
    exact .here
  | cons step rest ih =>
    by_cases hhere : t.entryAt here = some .directory
    · cases step with
      | stay =>
        rw [walk, if_pos hhere] at hwalk
        exact .stay hhere (ih hwalk)
      | up =>
        rw [walk, if_pos hhere] at hwalk
        exact .up hhere (ih hwalk)
      | into n =>
        by_cases hn : n.length ≤ nameLimit
        · cases hentry : t.entryAt (here ++ [n]) with
          | none =>
            rw [walk, if_pos hhere] at hwalk
            simp only [if_neg (Nat.not_lt.2 hn), hentry] at hwalk
            split at hwalk
            -- a name that nothing has may only be the last
            · rename_i hnil
              cases hwalk
              subst hnil
              exact .fresh hhere hn hentry
            · cases hwalk
          | some e =>
            have hsome : t.entryAt (here ++ [n]) ≠ none := by simp [hentry]
            cases e with
            | file content =>
              rw [walk, if_pos hhere] at hwalk
              simp only [if_neg (Nat.not_lt.2 hn), hentry] at hwalk
              exact .into hhere hn hsome (by simp [IsLink, hentry]) (ih hwalk)
            | directory =>
              rw [walk_into_directory h hhere hn hentry] at hwalk
              exact .into hhere hn hsome (by simp [IsLink, hentry]) (ih hwalk)
            | link target =>
              rw [walk, if_pos hhere] at hwalk
              simp only [if_neg (Nat.not_lt.2 hn), hentry] at hwalk
              obtain ⟨fewer, rfl, hrest⟩ := hjump target here rest there hwalk
              exact .jump hhere hn hentry hrest
        · rw [walk, if_pos hhere] at hwalk
          simp only [if_pos (Nat.not_le.1 hn)] at hwalk
          cases hwalk
    · rw [walk.eq_def] at hwalk
      simp only [if_neg hhere] at hwalk
      cases hwalk

/-- What is followed to a place takes the steps to it. -/
theorem reaches_of_follow (h : t.IsSound) {links : Nat} {here there : Place} {steps : List Step}
    (hfollow : t.follow links here steps = .ok there) : Reaches t links here steps there := by
  -- on the links that may still be followed
  induction links generalizing here there steps with
  | zero =>
    rw [follow_eq] at hfollow
    refine reaches_of_walk h ?_ hfollow
    intro _ _ _ _ hjump
    cases hjump
  | succ links ih =>
    rw [follow_eq] at hfollow
    refine reaches_of_walk h ?_ hfollow
    intro target here rest there hjump
    exact ⟨links, rfl, ih hjump⟩

/-- Steps that lead to a place are followed to it. -/
theorem follow_of_reaches (h : t.IsSound) {links : Nat} {here there : Place} {steps : List Step}
    (hreaches : Reaches t links here steps there) : t.follow links here steps = .ok there := by
  induction hreaches with
  | here =>
    rw [follow_eq]
    simp only [walk]
  | stay hhere _ ih =>
    rw [follow_eq] at ih ⊢
    rw [walk, if_pos hhere]
    exact ih
  | up hhere _ ih =>
    rw [follow_eq] at ih ⊢
    rw [walk, if_pos hhere]
    exact ih
  | fresh hhere hn hnone =>
    rw [follow_eq, walk, if_pos hhere]
    simp [Nat.not_lt.2 hn, hnone]
  | @into links here there n rest hhere hn hsome hlink _ ih =>
    rw [follow_eq] at ih ⊢
    -- the step goes on from a file or a directory, whose runs the walk takes together
    cases hentry : t.entryAt (here ++ [n]) with
    | none => exact absurd hentry hsome
    | some e =>
      cases e with
      | file content =>
        rw [walk, if_pos hhere]
        simp only [if_neg (Nat.not_lt.2 hn), hentry]
        exact ih
      | directory =>
        rw [walk_into_directory h hhere hn hentry]
        exact ih
      | link target => exact absurd ⟨target, hentry⟩ hlink
  | jump hhere hn hlink _ ih =>
    rw [follow_eq, walk, if_pos hhere]
    simp only [if_neg (Nat.not_lt.2 hn), hlink]
    exact ih

/-- Following steps leads to a place exactly when the steps do. -/
theorem follow_eq_ok_iff (h : t.IsSound) {links : Nat} {here there : Place} {steps : List Step} :
    t.follow links here steps = .ok there ↔ Reaches t links here steps there :=
  ⟨reaches_of_follow h, follow_of_reaches h⟩

/-- Steps lead to one place only. -/
theorem Reaches.unique (h : t.IsSound) {links : Nat} {here there other : Place} {steps : List Step}
    (hthere : Reaches t links here steps there) (hother : Reaches t links here steps other) :
    there = other := by
  have hfollow := follow_of_reaches h hthere
  rw [follow_of_reaches h hother] at hfollow
  cases hfollow
  rfl

/-! ## Parts of a walk -/

/-- Steps are taken from a directory. -/
theorem Reaches.directory {links : Nat} {here there : Place} {steps : List Step}
    (h : Reaches t links here steps there) (hsteps : steps ≠ []) :
    t.entryAt here = some .directory := by
  cases h with
  | here => exact absurd rfl hsteps
  | stay hhere _ => exact hhere
  | up hhere _ => exact hhere
  | fresh hhere _ _ => exact hhere
  | into hhere _ _ _ _ => exact hhere
  | jump hhere _ _ _ => exact hhere

/-- A step to something that is no link leads there. -/
theorem Reaches.of_into {links : Nat} {here there : Place} {n : Name} {rest : List Step}
    (hsome : t.entryAt (here ++ [n]) ≠ none) (hlink : ¬ IsLink (t.entryAt (here ++ [n])))
    (h : Reaches t links here (.into n :: rest) there) :
    Reaches t links (here ++ [n]) rest there := by
  cases h with
  | fresh _ _ hnone => exact absurd hnone hsome
  | into _ _ _ _ hrest => exact hrest
  | jump _ _ hjump _ => exact absurd ⟨_, hjump⟩ hlink

/-- A step to a link goes on from its target, with one link less. -/
theorem Reaches.of_jump {links : Nat} {here there : Place} {n : Name} {target : Path}
    {rest : List Step} (hlink : t.entryAt (here ++ [n]) = some (.link target))
    (h : Reaches t (links + 1) here (.into n :: rest) there) :
    Reaches t links (if target.isAbsolute then [] else here)
      (Step.ofPath target ++ rest) there := by
  cases h with
  | fresh _ _ hnone =>
    rw [hlink] at hnone
    cases hnone
  | into _ _ _ hno _ => exact absurd ⟨_, hlink⟩ hno
  | jump _ _ hjump hrest =>
    rw [hlink] at hjump
    cases hjump
    exact hrest

/-- A walk that has led to a directory goes on from there, with the links that are left. -/
theorem Reaches.append {links : Nat} {here middle : Place} {front : List Step}
    (h : Reaches t links here front middle) (hmiddle : t.entryAt middle = some .directory) :
    ∃ left, ∀ back there,
      Reaches t links here (front ++ back) there ↔ Reaches t left middle back there := by
  induction h with
  | here => exact ⟨_, fun _ _ => Iff.rfl⟩
  | stay hhere _ ih =>
    obtain ⟨left, ih⟩ := ih hmiddle
    refine ⟨left, fun back there => ⟨fun h => ?_, fun h => .stay hhere ((ih back there).2 h)⟩⟩
    cases h with
    | stay _ hrest => exact (ih back there).1 hrest
  | up hhere _ ih =>
    obtain ⟨left, ih⟩ := ih hmiddle
    refine ⟨left, fun back there => ⟨fun h => ?_, fun h => .up hhere ((ih back there).2 h)⟩⟩
    cases h with
    | up _ hrest => exact (ih back there).1 hrest
  | fresh hhere hn hnone =>
    -- a name that nothing has is no directory
    rw [hnone] at hmiddle
    cases hmiddle
  | into hhere hn hsome hlink _ ih =>
    obtain ⟨left, ih⟩ := ih hmiddle
    exact ⟨left, fun back there =>
      ⟨fun h => (ih back there).1 (.of_into hsome hlink h),
        fun h => .into hhere hn hsome hlink ((ih back there).2 h)⟩⟩
  | jump hhere hn hlink _ ih =>
    obtain ⟨left, ih⟩ := ih hmiddle
    refine ⟨left, fun back there => ⟨fun h => ?_, fun h => .jump hhere hn hlink ?_⟩⟩
    · refine (ih back there).1 ?_
      rw [List.append_assoc]
      exact .of_jump hlink h
    · have hrest := (ih back there).2 h
      rw [List.append_assoc] at hrest
      exact hrest

/-- A walk that goes on has led to a directory. -/
theorem Reaches.split {links : Nat} {here there : Place} {front back : List Step}
    (hback : back ≠ []) (h : Reaches t links here (front ++ back) there) :
    ∃ middle, Reaches t links here front middle ∧ t.entryAt middle = some .directory := by
  -- the first part is left open, since a link changes what the steps are
  generalize hsteps : front ++ back = steps at h
  induction h generalizing front back with
  | here => exact absurd (List.append_eq_nil_iff.1 hsteps).2 hback
  | stay hhere hrest ih =>
    cases front with
    | nil => exact ⟨_, .here, hhere⟩
    | cons step front =>
      cases hsteps
      obtain ⟨middle, hfront, hmiddle⟩ := ih hback rfl
      exact ⟨middle, .stay hhere hfront, hmiddle⟩
  | up hhere hrest ih =>
    cases front with
    | nil => exact ⟨_, .here, hhere⟩
    | cons step front =>
      cases hsteps
      obtain ⟨middle, hfront, hmiddle⟩ := ih hback rfl
      exact ⟨middle, .up hhere hfront, hmiddle⟩
  | fresh hhere hn hnone =>
    cases front with
    | nil => exact ⟨_, .here, hhere⟩
    | cons step front =>
      rw [List.cons_append, List.cons.injEq, List.append_eq_nil_iff] at hsteps
      exact absurd hsteps.2.2 hback
  | into hhere hn hsome hlink hrest ih =>
    cases front with
    | nil => exact ⟨_, .here, hhere⟩
    | cons step front =>
      cases hsteps
      obtain ⟨middle, hfront, hmiddle⟩ := ih hback rfl
      exact ⟨middle, .into hhere hn hsome hlink hfront, hmiddle⟩
  | jump hhere hn hlink hrest ih =>
    cases front with
    | nil => exact ⟨_, .here, hhere⟩
    | cons step front =>
      cases hsteps
      obtain ⟨middle, hfront, hmiddle⟩ := ih hback (List.append_assoc _ _ _)
      exact ⟨middle, .jump hhere hn hlink hfront, hmiddle⟩

/-! ## Walks in a tree that has changed -/

/-- Every directory and every link of the one tree stands in the other as well. -/
structure Carries (t t' : FileTree) : Prop where
  directory : ∀ p, t.entryAt p = some .directory → t'.entryAt p = some .directory
  link : ∀ p target, t.entryAt p = some (.link target) → t'.entryAt p = some (.link target)

/-- A walk to where something stands leads there as well where nothing it passes is missing. -/
theorem Reaches.mono {t t' : FileTree} (hcarries : Carries t t') {links : Nat} {here there : Place}
    {steps : List Step} (h : Reaches t links here steps there)
    (hthere' : t'.entryAt there ≠ none) (hlink' : ¬ IsLink (t'.entryAt there)) :
    Reaches t' links here steps there := by
  induction h with
  | here => exact .here
  | stay hhere _ ih => exact .stay (hcarries.directory _ hhere) (ih hthere' hlink')
  | up hhere _ ih => exact .up (hcarries.directory _ hhere) (ih hthere' hlink')
  | fresh hhere hn _ => exact .into (hcarries.directory _ hhere) hn hthere' hlink' .here
  | @into links here there n rest hhere hn hsome hlink hrest ih =>
    by_cases hnext : t.entryAt (here ++ [n]) = some .directory
    · have hnext' := hcarries.directory _ hnext
      refine .into (hcarries.directory _ hhere) hn ?_ ?_ (ih hthere' hlink')
      · simp [hnext']
      · simp [IsLink, hnext']
    · -- only a directory is walked on from, so the walk ends here
      have hrestNil : rest = [] := by
        cases rest with
        | nil => rfl
        | cons step rest => exact absurd (hrest.directory (by simp)) hnext
      subst hrestNil
      cases hrest
      exact .into (hcarries.directory _ hhere) hn hthere' hlink' .here
  | jump hhere hn hlink _ ih =>
    exact .jump (hcarries.directory _ hhere) hn (hcarries.link _ _ hlink) (ih hthere' hlink')

/-- A walk to a directory leads there in any tree that has all directories and links. -/
theorem Reaches.mono_directory {t t' : FileTree} (hcarries : Carries t t') {links : Nat}
    {here there : Place} {steps : List Step} (h : Reaches t links here steps there)
    (hthere : t.entryAt there = some .directory) : Reaches t' links here steps there := by
  have hthere' := hcarries.directory _ hthere
  exact h.mono hcarries (by simp [hthere']) (by simp [IsLink, hthere'])

/-! ## Walks without links -/

/-- Where names lead from a place below which no links stand. -/
theorem Reaches.names {links : Nat} {here there : Place} {ns : List Name}
    (hlinks : ∀ q, isBelow here q = true → ¬ IsLink (t.entryAt q))
    (h : Reaches t links here (ns.map .into) there) : there = here ++ ns := by
  induction ns generalizing here with
  | nil =>
    cases h
    simp
  | cons n ns ih =>
    have hnext : ¬ IsLink (t.entryAt (here ++ [n])) := hlinks _ (isBelow_append here (by simp))
    -- `cases` needs the steps as a variable
    generalize hsteps : (n :: ns).map Step.into = steps at h
    cases h with
    | fresh _ _ _ =>
      rw [List.map_cons, List.cons.injEq, List.map_eq_nil_iff, Step.into.injEq] at hsteps
      rw [hsteps.1, hsteps.2]
    | into _ _ _ _ hrest =>
      rw [List.map_cons, List.cons.injEq, Step.into.injEq] at hsteps
      obtain ⟨rfl, rfl⟩ := hsteps
      rw [ih (fun q hq => hlinks q (isBelow_trans (isBelow_append here (by simp)) hq)) hrest]
      simp
    | jump _ _ hlink _ =>
      rw [List.map_cons, List.cons.injEq, Step.into.injEq] at hsteps
      rw [← hsteps.1] at hlink
      exact absurd ⟨_, hlink⟩ hnext
    | _ => cases hsteps

end InterfacePackage.FileTree
