import InterfacePackage.Proofs.FileTree.Grow

/-!
# Trees that agree outside of a directory

A path that does not climb passes only what is on the way to where it leads. So in trees without
links it finds the same, or fails alike, as long as they hold the same outside of a directory that
it does not lead into. Main statements: `follow_eq_of_agree` and `AgreesOutside.lookup`.
-/

namespace InterfacePackage

/-- Steps that stay have no part in where steps lead. -/
theorem Path.foldl_move_ofPath (p : Path) (here : Place) :
    (Step.ofPath p).foldl Step.move here = p.route.foldl Step.move here := by
  rw [← filter_ofPath]
  induction Step.ofPath p generalizing here with
  | nil => rfl
  | cons step steps ih =>
    cases step with
    | stay =>
      rw [List.filter_cons_of_neg (by simp)]
      exact ih here
    | up =>
      rw [List.filter_cons_of_pos (by simp)]
      exact ih here.dropLast
    | into n =>
      rw [List.filter_cons_of_pos (by simp)]
      exact ih (here ++ [n])

/-- The steps of a path climb only if its route does. -/
theorem Path.up_notMem_ofPath {p : Path} (h : .up ∉ p.route) : .up ∉ Step.ofPath p := by
  intro hup
  rw [← filter_ofPath] at h
  exact h (List.mem_filter.2 ⟨hup, by simp⟩)

namespace FileTree

variable {t t' t'' : FileTree} {here p q : Place} {path : Path}

/-- Nothing on the way to a place that is not below a directory is below that directory. -/
theorem not_isBelow_above (hpq : p <+: q) (hq : ¬ isBelow here q = true) :
    ¬ isBelow here p = true := by
  obtain ⟨rest, rfl⟩ := hpq
  intro hp
  obtain ⟨n, ns, rfl⟩ := isBelow_iff.1 hp
  exact hq (isBelow_iff.2 ⟨n, ns ++ rest, by simp⟩)

/-- Without links and without climbing, steps are followed alike in trees that hold the same all the
way to where the steps lead. -/
theorem follow_eq_of_agree (ht : t.IsSound) (ht' : t'.IsSound) (hlinks : t.IsLinkless)
    {links : Nat} {here : Place} {steps : List Step} (hup : .up ∉ steps)
    (hsame : ∀ q, q <+: steps.foldl Step.move here → t'.entryAt q = t.entryAt q) :
    t'.follow links here steps = t.follow links here steps := by
  induction steps generalizing here with
  | nil =>
    rw [follow_eq, follow_eq, walk, walk]
  | cons step rest ih =>
    rw [List.mem_cons, not_or] at hup
    obtain ⟨names, hend⟩ := exists_append_of_foldl_move hup.2 (step.move here)
    have hleads : step.move here <+: (step :: rest).foldl Step.move here := ⟨names, hend.symm⟩
    have hrest := @ih (step.move here) hup.2 hsame
    rw [follow_eq, follow_eq] at hrest ⊢
    by_cases hdir : t.entryAt here = some .directory
    · cases step with
      | up => exact absurd rfl hup.1
      | stay =>
        have hdir' : t'.entryAt here = some .directory := (hsame here hleads).trans hdir
        rw [walk, walk, if_pos hdir, if_pos hdir']
        exact hrest
      | into n =>
        have hhere : here <+: (Step.into n :: rest).foldl Step.move here :=
          (List.prefix_append here [n]).trans hleads
        have hdir' : t'.entryAt here = some .directory := (hsame here hhere).trans hdir
        have hnext : t'.entryAt (here ++ [n]) = t.entryAt (here ++ [n]) := hsame _ hleads
        by_cases hn : n.length ≤ nameLimit
        · cases hentry : t.entryAt (here ++ [n]) with
          | none =>
            rw [hentry] at hnext
            rw [walk, walk, if_pos hdir, if_pos hdir']
            simp only [if_neg (Nat.not_lt.2 hn), hentry, hnext]
          | some e =>
            rw [hentry] at hnext
            cases e with
            | link target => exact absurd ⟨target, hentry⟩ (hlinks _)
            | file content =>
              rw [walk, walk, if_pos hdir, if_pos hdir']
              simp only [if_neg (Nat.not_lt.2 hn), hentry, hnext]
              exact hrest
            | directory =>
              rw [walk_into_directory ht hdir hn hentry, walk_into_directory ht' hdir' hn hnext]
              exact hrest
        · rw [walk, walk, if_pos hdir, if_pos hdir']
          simp only [if_pos (Nat.not_le.1 hn)]
    · -- no step is taken from what is no directory
      have hhere : here <+: (step :: rest).foldl Step.move here := by
        cases step with
        | up => exact absurd rfl hup.1
        | stay => exact hleads
        | into n => exact (List.prefix_append here [n]).trans hleads
      have hdir' : ¬ t'.entryAt here = some .directory := by rwa [hsame here hhere]
      rw [walk.eq_def, walk.eq_def]
      simp only [if_neg hdir, if_neg hdir']

/-! ## Agreement -/

/-- The second tree holds the same as the first at every place that is not below `here`. -/
structure AgreesOutside (here : Place) (t t' : FileTree) : Prop where
  start : t'.start = t.start
  entry : ∀ q, ¬ isBelow here q = true → t'.entryAt q = t.entryAt q

namespace AgreesOutside

/-- Trees agree outside of a directory if clearing it leaves the same of both. -/
theorem of_clear_eq (h : t.clear here = t'.clear here) : AgreesOutside here t t' where
  start := (congrArg FileTree.start h).symm
  entry q hq := by
    have hentry := congrArg (fun u => FileTree.entryAt u q) h
    rw [entryAt_clear, entryAt_clear, if_neg hq, if_neg hq] at hentry
    exact hentry.symm

theorem of_fills (h : Fills t here t') : AgreesOutside here t t' :=
  ⟨h.start, fun _ hq => h.entryAt_eq hq⟩

theorem of_strips (h : Strips t here t') : AgreesOutside here t t' :=
  ⟨h.start, fun _ hq => h.entryAt_eq hq⟩

section

variable (h : AgreesOutside here t t') (ht : t.IsSound) (ht' : t'.IsSound) (hlinks : t.IsLinkless)
  (habs : path.isAbsolute = true) (hup : .up ∉ path.route)
  (hout : ¬ isBelow here path.endpoint = true)

include h ht ht' hlinks habs hup hout

/-- A path that does not climb and leads to no place below the directory finds the same. -/
theorem lookup : t'.lookup path = t.lookup path := by
  have hsame : ∀ q, q <+: (Step.ofPath path).foldl Step.move [] → t'.entryAt q = t.entryAt q := by
    intro q hq
    rw [Path.foldl_move_ofPath] at hq
    exact h.entry q (not_isBelow_above hq hout)
  have hfollow : t'.follow linkLimit [] (Step.ofPath path)
      = t.follow linkLimit [] (Step.ofPath path) :=
    follow_eq_of_agree ht ht' hlinks (Path.up_notMem_ofPath hup) hsame
  rw [FileTree.lookup, FileTree.lookup, startOf_of_isAbsolute t habs, startOf_of_isAbsolute t' habs,
    lookupFrom, lookupFrom, hfollow]
  cases hthere : t.follow linkLimit [] (Step.ofPath path) with
  | error fault => rfl
  | ok there =>
    have hplace := Reaches.place_eq hlinks (reaches_of_follow ht hthere)
    have hentry := hsame there (hplace ▸ List.prefix_refl _)
    simp only [bind, Except.bind, hentry]

theorem read : t'.read path = t.read path := by
  rw [FileTree.read, FileTree.read, h.lookup ht ht' hlinks habs hup hout]

theorem readText : t'.readText path = t.readText path := by
  rw [FileTree.readText, FileTree.readText, h.read ht ht' hlinks habs hup hout]

theorem exists? : t'.exists? path = t.exists? path := by
  rw [FileTree.exists?, FileTree.exists?, h.lookup ht ht' hlinks habs hup hout]

end

end AgreesOutside

end FileTree

end InterfacePackage
