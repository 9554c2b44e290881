import InterfacePackage.Proofs.FileTree.Into
import InterfacePackage.Proofs.Path.Parent

/-!
# Missing directories made

Making a directory with all that are missing above it adds directories on the way of its path and
changes nothing else, also when it fails half-way. When it succeeds and the path does not climb, the
directory was there before and nothing happened, or it is new. Main statements:
`makeDirectories_builds` and `makeDirectories_ok`.
-/

namespace InterfacePackage.FileTree

variable {t t' t'' : FileTree} {path above : Path} {p q : Place} {e : Entry}

/-! ## What building does -/

/-- A directory that a path or one above it denotes. -/
def OnWay (t : FileTree) (path : Path) (q : Place) : Prop :=
  ∃ above ∈ path.ancestors, t.lookup above = .ok (q, .directory)

/-- The second tree is the first with some directories added on the way of a path. -/
structure Builds (t : FileTree) (path : Path) (t' : FileTree) : Prop where
  proper : t'.IsProper
  start : t'.start = t.start
  entry : ∀ q, t'.entryAt q = t.entryAt q ∨
    t.entryAt q = none ∧ t'.entryAt q = some .directory ∧ OnWay t' path q

namespace Builds

theorem refl (ht : t.IsProper) (path : Path) : Builds t path t := ⟨ht, rfl, fun _ => .inl rfl⟩

/-- What stood somewhere still stands there. -/
theorem kept (h : Builds t path t') (hp : t.entryAt p = some e) : t'.entryAt p = some e := by
  rcases h.entry p with hsame | ⟨hnone, -, -⟩
  · rw [hsame, hp]
  · rw [hnone] at hp
    cases hp

theorem carries (h : Builds t path t') : Carries t t' :=
  ⟨fun _ hp => h.kept hp, fun _ _ hp => h.kept hp⟩

/-- Where nothing stood there is a directory now or still nothing. -/
theorem gained (h : Builds t path t') (hp : t.entryAt p = none) :
    t'.entryAt p = none ∨ t'.entryAt p = some .directory := by
  rcases h.entry p with hsame | ⟨-, hnew, -⟩
  · exact .inl (hsame.trans hp)
  · exact .inr hnew

/-- Building goes on along the same way or down from a part of it. -/
theorem trans (h : Builds t above t') (h' : Builds t' path t'')
    (habove : ∀ a ∈ above.ancestors, a ∈ path.ancestors) (ht' : t'.IsProper) :
    Builds t path t'' where
  proper := h'.proper
  start := h'.start.trans h.start
  entry q := by
    rcases h'.entry q with hsame' | ⟨hnone', hnew', hway'⟩
    · rw [hsame']
      rcases h.entry q with hsame | ⟨hnone, hnew, a, ha, hlookup⟩
      · exact .inl hsame
      · exact .inr ⟨hnone, hnew, a, habove a ha,
          lookup_mono_directory ht'.sound h'.proper.sound h'.start h'.carries hlookup⟩
    · refine .inr ⟨?_, hnew', hway'⟩
      -- what the first building kept would still be there
      cases hold : t.entryAt q with
      | none => rfl
      | some e =>
        rw [h.kept hold] at hnone'
        cases hnone'

end Builds

/-! ## One directory -/

/-- What comes of making sure of a directory. -/
theorem outcome_ensureDirectory (path : Path) (t : FileTree) :
    outcome (ensureDirectory path) t = match t.makeDirectory path with
      | .ok t' => (.ok (), t')
      | .error e => if t.isDirectory path then (.ok (), t) else (.error e, t) := by
  rw [ensureDirectory, outcome_bind, outcome_get]
  dsimp only
  cases t.makeDirectory path with
  | ok t' => rfl
  | error e =>
    dsimp only
    rw [outcome_bind, outcome_get]
    dsimp only
    split <;> rfl

/-- A new directory is found under its path. -/
theorem lookup_of_makeDirectory (ht : t.IsProper) (hmake : t.makeDirectory path = .ok t') :
    ∃ q, t'.lookup path = .ok (q, .directory) ∧ t.entryAt q = none ∧ Puts t q .directory t' := by
  obtain ⟨q, hpath, hnone, hvet, hputs⟩ := makeDirectory_spec ht.sound hmake
  exact ⟨q, lookup_of_denotes (hputs.proper ht).sound hvet hpath hputs.entryAt_self, hnone, hputs⟩

/-- Making a directory builds on the way of its path. -/
theorem builds_of_makeDirectory (ht : t.IsProper) (hmake : t.makeDirectory path = .ok t') :
    Builds t path t' := by
  obtain ⟨q, hlookup, hnone, hputs⟩ := lookup_of_makeDirectory ht hmake
  refine ⟨hputs.proper ht, hputs.start, fun p => ?_⟩
  by_cases hp : p = q
  · subst hp
    exact .inr ⟨hnone, hputs.entryAt_self, path, Path.self_mem_ancestors path, hlookup⟩
  · exact .inl (hputs.entryAt_of_ne hp)

/-- Making sure of a directory builds on the way of its path. -/
theorem ensureDirectory_builds (ht : t.IsProper) (path : Path) :
    Builds t path (outcome (ensureDirectory path) t).2 := by
  rw [outcome_ensureDirectory]
  cases hmake : t.makeDirectory path with
  | ok t' => exact builds_of_makeDirectory ht hmake
  | error e =>
    dsimp only
    split <;> exact .refl ht path

/-- A path that is a directory denotes one. -/
theorem lookup_of_isDirectory (h : t.isDirectory path = true) :
    ∃ q, t.lookup path = .ok (q, .directory) := by
  unfold isDirectory at h
  split at h
  · rename_i q hlookup
    exact ⟨q, hlookup⟩
  · cases h

/-- A directory that was made sure of was there before, or it is new. -/
theorem ensureDirectory_ok (ht : t.IsProper)
    (hok : outcome (ensureDirectory path) t = (.ok (), t')) :
    ∃ q, t'.lookup path = .ok (q, .directory) ∧ (t' = t ∨ t.entryAt q = none) := by
  rw [outcome_ensureDirectory] at hok
  cases hmake : t.makeDirectory path with
  | ok made =>
    rw [hmake] at hok
    cases hok
    obtain ⟨q, hlookup, hnone, -⟩ := lookup_of_makeDirectory ht hmake
    exact ⟨q, hlookup, .inr hnone⟩
  | error e =>
    rw [hmake] at hok
    dsimp only at hok
    split at hok
    -- making it failed, and it was there
    · rename_i hdir
      cases hok
      obtain ⟨q, hlookup⟩ := lookup_of_isDirectory hdir
      exact ⟨q, hlookup, .inl rfl⟩
    · cases hok

/-! ## A chain of directories -/

/-- What comes of making a chain of directories: either only its end is made, or what is above it
first. -/
theorem outcome_makeChain_succ (levels : Nat) (path : Path) (t : FileTree) (hpath : path ≠ []) :
    outcome (makeChain (levels + 1) path) t = outcome (ensureDirectory path) t ∨
      ∃ above, path.parent = some above ∧ outcome (makeChain (levels + 1) path) t
        = outcome (makeChain levels above >>= fun _ => ensureDirectory path) t := by
  rw [makeChain, if_neg hpath, outcome_bind, outcome_get]
  dsimp only
  split
  · rename_i above _ habove
    exact .inr ⟨above, habove, rfl⟩
  · exact .inl rfl

/-- A chain of directories is built on the way of its path. -/
theorem makeChain_builds (ht : t.IsProper) (levels : Nat) (path : Path) :
    Builds t path (outcome (makeChain levels path) t).2 := by
  induction levels generalizing path with
  | zero => exact ensureDirectory_builds ht path
  | succ levels ih =>
    by_cases hpath : path = []
    · subst hpath
      exact .refl ht []
    · rcases outcome_makeChain_succ levels path t hpath with hend | ⟨above, habove, hchain⟩
      · rw [hend]
        exact ensureDirectory_builds ht path
      · -- a part of the way of the path above is one of the way of the path
        have hancestors : ∀ a ∈ above.ancestors, a ∈ path.ancestors := fun a ha => by
          rw [Path.ancestors_of_parent habove]
          exact List.mem_cons_of_mem _ ha
        have hbuilds := ih above
        rw [hchain, outcome_bind]
        cases hrun : outcome (makeChain levels above) t with
        | mk result t₁ =>
          rw [hrun] at hbuilds
          cases result with
          | error e => exact hbuilds.trans (.refl hbuilds.proper path) hancestors hbuilds.proper
          | ok _ =>
            exact hbuilds.trans (ensureDirectory_builds hbuilds.proper path) hancestors
              hbuilds.proper

/-- What every new directory keeps is kept when a chain of them is made, whatever comes of it. -/
theorem makeChain_keeps {P : FileTree → Prop}
    (hnew : ∀ t t' path, P t → t.makeDirectory path = .ok t' → P t') (levels : Nat) (path : Path)
    (ht : P t) : P (outcome (makeChain levels path) t).2 := by
  have hensure : ∀ t path, P t → P (outcome (ensureDirectory path) t).2 := by
    intro t path ht
    rw [outcome_ensureDirectory]
    cases hmake : t.makeDirectory path with
    | ok t' => exact hnew t t' path ht hmake
    | error e =>
      dsimp only
      split <;> exact ht
  induction levels generalizing path with
  | zero => exact hensure t path ht
  | succ levels ih =>
    by_cases hpath : path = []
    · subst hpath
      exact ht
    · rcases outcome_makeChain_succ levels path t hpath with hend | ⟨above, -, hchain⟩
      · rw [hend]
        exact hensure t path ht
      · have habove := ih above
        rw [hchain, outcome_bind]
        cases hrun : outcome (makeChain levels above) t with
        | mk result t₁ =>
          rw [hrun] at habove
          cases result with
          | error e => exact habove
          | ok _ => exact hensure t₁ path habove

/-- A path that a chain of directories was made along denotes a directory. -/
theorem lookup_of_makeChain (ht : t.IsProper) {levels : Nat} (hpath : path ≠ [])
    (hok : outcome (makeChain levels path) t = (.ok (), t')) :
    ∃ q, t'.lookup path = .ok (q, .directory) := by
  -- whatever is made above it, the end of the path is made sure of last
  have hend : ∀ {u : FileTree}, u.IsProper → outcome (ensureDirectory path) u = (.ok (), t') →
      ∃ q, t'.lookup path = .ok (q, .directory) := by
    intro u hu hensure
    obtain ⟨q, hq, -⟩ := ensureDirectory_ok hu hensure
    exact ⟨q, hq⟩
  cases levels with
  | zero => exact hend ht hok
  | succ levels =>
    rcases outcome_makeChain_succ levels path t hpath with honly | ⟨above, -, hchain⟩
    · exact hend ht (honly ▸ hok)
    · have hproper := (makeChain_builds ht levels above).proper
      rw [hchain, outcome_bind] at hok
      cases hrun : outcome (makeChain levels above) t with
      | mk result t₁ =>
        rw [hrun] at hok hproper
        cases result with
        | error e => cases hok
        | ok _ => exact hend hproper hok

/-- Making missing directories builds on the way of the path, and changes nothing else. -/
theorem makeDirectories_builds (ht : t.IsProper) (path : Path) :
    Builds t path (outcome (makeDirectories path) t).2 :=
  makeChain_builds ht _ path

/-- It changes nothing at the root. -/
theorem makeDirectories_root (ht : t.IsProper) (path : Path) :
    (outcome (makeDirectories path) t).2.entries[([] : Place)]? = t.entries[([] : Place)]? := by
  have hkept := @makeChain_keeps t
    (fun t' => t'.IsProper ∧ t'.entries[([] : Place)]? = t.entries[([] : Place)]?) ?_
    (path.length + 1) path ⟨ht, rfl⟩
  · exact hkept.2
  · rintro t₁ t₂ path' ⟨ht₁, hroot⟩ hmake
    obtain ⟨q, -, -, -, hputs⟩ := makeDirectory_spec ht₁.sound hmake
    exact ⟨hputs.proper ht₁, hputs.root.trans hroot⟩

/-- The last step of an absolute path that does not climb goes to a name. -/
theorem route_of_parent (habs : path.isAbsolute = true) (hup : .up ∉ path.route)
    (habove : path.parent = some above) :
    above.isAbsolute = true ∧ .up ∉ above.route ∧ ∃ n, path.route = above.route ++ [.into n] := by
  obtain ⟨habsAbove, c, hpieces⟩ := Path.parent_spec habs habove
  have hroute : path.route = above.route ++ [Step.ofComponent c] := by
    rw [Path.route, hpieces, List.map_append]
    rfl
  rw [hroute, List.mem_append, not_or, List.mem_singleton] at hup
  refine ⟨habsAbove, hup.1, ?_⟩
  have hpiece : c ∈ path.pieces := by simp [hpieces]
  obtain ⟨piece, -, hc⟩ := List.mem_filterMap.1 hpiece
  obtain ⟨-, hstay⟩ := Step.ofPiece_of_some hc
  -- what is left of the steps is one to a name
  cases hstep : Step.ofComponent c with
  | stay => exact absurd hstep hstay
  | up => exact absurd hstep.symm hup.2
  | into n => exact ⟨n, by rw [hroute, hstep]⟩

/-- A chain of directories along a path that does not climb ends at a directory that was there
before, with nothing changed, or at a new one. -/
theorem makeChain_ok (ht : t.IsProper) {levels : Nat} (habs : path.isAbsolute = true)
    (hup : .up ∉ path.route) (hok : outcome (makeChain levels path) t = (.ok (), t')) :
    ∃ q, t'.lookup path = .ok (q, .directory) ∧ (t' = t ∨ t.entryAt q = none) := by
  induction levels generalizing path t' with
  | zero => exact ensureDirectory_ok ht hok
  | succ levels ih =>
    have hpath : path ≠ [] := Path.ne_nil_of_isAbsolute habs
    rcases outcome_makeChain_succ levels path t hpath with hend | ⟨above, habove, hchain⟩
    · exact ensureDirectory_ok ht (hend ▸ hok)
    · obtain ⟨habsAbove, hupAbove, n, hroute⟩ := route_of_parent habs hup habove
      have hbuilds := makeChain_builds ht levels above
      rw [hchain, outcome_bind] at hok
      cases hrun : outcome (makeChain levels above) t with
      | mk result t₁ =>
        rw [hrun] at hok hbuilds
        cases result with
        | error e => cases hok
        | ok _ =>
          obtain ⟨here, hhere, hfirst⟩ := ih habsAbove hupAbove hrun
          obtain ⟨q, hq, hlast⟩ := ensureDirectory_ok hbuilds.proper hok
          refine ⟨q, hq, ?_⟩
          rcases hlast with rfl | hnone
          · rcases hfirst with rfl | hnew
            · exact .inl rfl
            · -- the directory above is new, so nothing but its name leads on from it
              right
              obtain ⟨habove', hdir, -⟩ := denotes_of_lookup hbuilds.proper.sound hhere
              obtain ⟨hpath', -, -⟩ := denotes_of_lookup hbuilds.proper.sound hq
              obtain ⟨left, hback⟩ := Reaches.append habove' hdir
              rw [Denotes, hroute, startOf_of_isAbsolute _ habs,
                ← startOf_of_isAbsolute t' habsAbove] at hpath'
              have hstep := (hback _ _).1 hpath'
              have hbelow : ∀ r, isBelow here r = true → ¬ IsLink (t'.entryAt r) := by
                rintro r hr ⟨target, hlink⟩
                have hold := ht.sound.none_below (by simp [hnew]) hr
                rcases hbuilds.gained hold with h | h <;> rw [h] at hlink <;> cases hlink
              have hq' : q = here ++ [n] := @Reaches.names _ _ _ _ [n] hbelow hstep
              rw [hq']
              exact ht.sound.none_below (by simp [hnew]) (isBelow_append here (by simp))
          · right
            cases hold : t.entryAt q with
            | none => rfl
            | some e =>
              rw [hbuilds.kept hold] at hnone
              cases hnone

/-- Missing directories made along a path that does not climb end at a directory that was there
before, with nothing changed, or at a new one. -/
theorem makeDirectories_ok (ht : t.IsProper) (habs : path.isAbsolute = true)
    (hup : .up ∉ path.route) (hok : outcome (makeDirectories path) t = (.ok (), t')) :
    ∃ q, t'.lookup path = .ok (q, .directory) ∧ (t' = t ∨ t.entryAt q = none) :=
  makeChain_ok ht habs hup hok

end InterfacePackage.FileTree
