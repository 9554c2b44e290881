import InterfacePackage.FileTree.Access
import InterfacePackage.Proofs.FileTree.Proper
import InterfacePackage.Proofs.FileTree.Route
import InterfacePackage.Proofs.Outcome

/-!
# Single changes

What one change of a tree does, as a fact about the place that its path denotes: a new directory, a
file written and a file copied each put one entry into a directory. Main statements:
`makeDirectory_spec`, `write_spec` and `copy_spec`.
-/

namespace InterfacePackage

/-- The steps of a path go to names that an entry may have. -/
theorem Step.isName_of_mem_ofPath {p : Path} {n : Name} (h : .into n ∈ Step.ofPath p) :
    IsName n := by
  obtain ⟨piece, hpiece, hstep⟩ := List.mem_map.1 h
  have hslash := Text.notMem_of_mem_split hpiece
  unfold Step.ofPiece at hstep
  split at hstep
  · cases hstep
  · cases hstep
  · cases hstep
  · rename_i hne hdot hdots
    cases hstep
    exact isName_encode_iff.2 ⟨hne, hdot, hdots, hslash⟩

/-- The route of a path goes to names that an entry may have. -/
theorem Path.isName_of_mem_route {p : Path} {n : Name} (h : .into n ∈ p.route) : IsName n := by
  rw [← Path.filter_ofPath] at h
  exact Step.isName_of_mem_ofPath (List.mem_filter.1 h).1

namespace FileTree

variable {t t' : FileTree} {p q : Place} {n : Name} {e : Entry}

/-- What comes of a single change. -/
theorem outcome_change (f : FileTree → Except Fault FileTree) (t : FileTree) :
    outcome (change f) t = match f t with
      | .ok t' => (.ok (), t')
      | .error e => (.error e, t) := by
  rw [change, outcome_bind, outcome_get]
  dsimp only
  cases f t <;> rfl

/-! ## Where walks end -/

/-- The directory above a directory is one. -/
theorem IsSound.dropLast (h : t.IsSound) (hp : t.entryAt p = some .directory) :
    t.entryAt p.dropLast = some .directory := by
  rcases List.eq_nil_or_concat p with rfl | ⟨above, n, rfl⟩
  · exact hp
  · rw [List.concat_eq_append] at hp ⊢
    rw [List.dropLast_concat]
    exact h above n (by simp [hp])

/-- A walk from a directory ends at one, or else at a file or at nothing under a name in one. -/
theorem Reaches.end_spec (h : t.IsSound) {links : Nat} {here there : Place} {steps : List Step}
    (hreaches : Reaches t links here steps there) (hhere : t.entryAt here = some .directory)
    (hnames : ∀ n, .into n ∈ steps → IsName n) :
    t.entryAt there = some .directory ∨
      (t.entryAt there = none ∨ ∃ content, t.entryAt there = some (.file content)) ∧
        ∃ above n, there = above ++ [n] ∧ t.entryAt above = some .directory ∧ IsName n := by
  induction hreaches with
  | here => exact .inl hhere
  | stay _ _ ih => exact ih hhere fun n hn => hnames n (List.mem_cons_of_mem _ hn)
  | up _ _ ih => exact ih (h.dropLast hhere) fun n hn => hnames n (List.mem_cons_of_mem _ hn)
  | @fresh links here n _ _ hnone =>
    exact .inr ⟨.inl hnone, here, n, rfl, hhere, hnames n List.mem_cons_self⟩
  | @into links here there n rest _ _ hsome hlink hrest ih =>
    cases hentry : t.entryAt (here ++ [n]) with
    | none => exact absurd hentry hsome
    | some e =>
      cases e with
      | directory => exact ih hentry fun m hm => hnames m (List.mem_cons_of_mem _ hm)
      | link target => exact absurd ⟨target, hentry⟩ hlink
      | file content =>
        -- nothing leads on from a file, so this is the last step
        have hrestNil : rest = [] := Classical.byContradiction fun hne => by
          have hdirectory := hrest.directory hne
          rw [hentry] at hdirectory
          cases hdirectory
        subst hrestNil
        cases hrest
        exact .inr ⟨.inr ⟨content, hentry⟩, here, n, rfl, hhere, hnames n List.mem_cons_self⟩
  | @jump links here there n target rest _ _ _ _ ih =>
    refine ih ?_ fun m hm => ?_
    · split
      · exact entryAt_root t
      · exact hhere
    · rcases List.mem_append.1 hm with hm | hm
      · exact Step.isName_of_mem_ofPath hm
      · exact hnames m (List.mem_cons_of_mem _ hm)

theorem startOf_of_isAbsolute (t : FileTree) {p : Path} (h : p.isAbsolute = true) :
    t.startOf p = [] := if_pos h

/-- Where an absolute path leads is a directory, or else a file or nothing under a name in one. -/
theorem Denotes.end_spec (h : t.IsSound) {p : Path} (habs : p.isAbsolute = true)
    (hp : t.Denotes p q) :
    t.entryAt q = some .directory ∨
      (t.entryAt q = none ∨ ∃ content, t.entryAt q = some (.file content)) ∧
        ∃ above n, q = above ++ [n] ∧ t.entryAt above = some .directory ∧ IsName n := by
  refine Reaches.end_spec h hp ?_ fun n hn => Path.isName_of_mem_route hn
  rw [startOf_of_isAbsolute t habs]
  exact entryAt_root t

/-! ## One entry put -/

/-- The second tree is the first with an entry put under a name in a directory, in the place of a
file or of nothing. -/
structure Puts (t : FileTree) (q : Place) (e : Entry) (t' : FileTree) : Prop where
  above : ∃ above n, q = above ++ [n] ∧ t.entryAt above = some .directory ∧ IsName n
  old : t.entryAt q = none ∨ ∃ content, t.entryAt q = some (.file content)
  eq : t' = t.put q e

namespace Puts

theorem ne_nil (h : Puts t q e t') : q ≠ [] := by
  obtain ⟨above, n, rfl, -, -⟩ := h.above
  simp

/-- No directory gives way to what is put. -/
theorem not_directory (h : Puts t q e t') : t.entryAt q ≠ some .directory := by
  rcases h.old with hold | ⟨content, hold⟩ <;> simp [hold]

/-- The tree stays proper. -/
theorem proper (h : Puts t q e t') (ht : t.IsProper) : t'.IsProper := by
  obtain ⟨above, n, rfl, habove, hn⟩ := h.above
  rw [h.eq]
  exact ht.put habove hn h.not_directory

theorem entryAt_self (h : Puts t q e t') : t'.entryAt q = some e := by
  rw [h.eq, entryAt_put_self t h.ne_nil]

theorem entryAt_of_ne (h : Puts t q e t') (hp : p ≠ q) : t'.entryAt p = t.entryAt p := by
  rw [h.eq, entryAt_put_of_ne t e hp]

theorem root (h : Puts t q e t') : t'.entries[([] : Place)]? = t.entries[([] : Place)]? := by
  rw [h.eq, put, Std.ExtTreeMap.getElem?_insert, if_neg]
  exact fun hsame => h.ne_nil (Std.LawfulEqCmp.eq_of_compare hsame)

theorem start (h : Puts t q e t') : t'.start = t.start := by rw [h.eq, put_start]

/-- All directories and links stay. -/
theorem carries (h : Puts t q e t') : Carries t t' where
  directory p hp := by
    rw [h.entryAt_of_ne, hp]
    rintro rfl
    exact h.not_directory hp
  link p target hp := by
    rw [h.entryAt_of_ne, hp]
    rintro rfl
    rcases h.old with hold | ⟨content, hold⟩ <;> simp [hold] at hp

end Puts

/-- Where an absolute path leads, something can be put unless a directory is there. -/
theorem Denotes.puts (h : t.IsSound) {p : Path} (habs : p.isAbsolute = true) (hp : t.Denotes p q)
    (hq : t.entryAt q ≠ some .directory) : Puts t q e (t.put q e) := by
  obtain ⟨hold, habove⟩ := (hp.end_spec h habs).resolve_left hq
  exact ⟨habove, hold, rfl⟩

/-- So can it where a relative path leads that has steps to take. -/
theorem Denotes.puts_of_route (h : t.IsSound) {p : Path} (hroute : p.route ≠ [])
    (hp : t.Denotes p q) (hq : t.entryAt q ≠ some .directory) : Puts t q e (t.put q e) := by
  have hstart : t.entryAt (t.startOf p) = some .directory := hp.directory hroute
  obtain ⟨hold, habove⟩ :=
    (Reaches.end_spec h hp hstart fun n hn => Path.isName_of_mem_route hn).resolve_left hq
  exact ⟨habove, hold, rfl⟩

/-! ## Changes that put an entry -/

/-- A file is written to where there is no directory. -/
theorem write_ok {p : Path} {content : Bytes} (hwrite : t.write p content = .ok t') :
    ∃ q, t.place p = .ok q ∧ t.entryAt q ≠ some .directory ∧ t' = t.put q (.file content) := by
  unfold write at hwrite
  cases hplace : t.place p with
  | error fault =>
    rw [hplace] at hwrite
    cases hwrite
  | ok q =>
    simp only [hplace, bind, Except.bind] at hwrite
    split at hwrite
    · cases hwrite
    · rename_i hq
      cases hwrite
      exact ⟨q, rfl, hq, rfl⟩

/-- A file is written where its path leads. -/
theorem write_spec (h : t.IsSound) {p : Path} {content : Bytes} (habs : p.isAbsolute = true)
    (hwrite : t.write p content = .ok t') :
    ∃ q, t.Denotes p q ∧ Puts t q (.file content) t' := by
  obtain ⟨q, hplace, hq, rfl⟩ := write_ok hwrite
  have hp := denotes_of_place h hplace
  exact ⟨q, hp, hp.puts h habs hq⟩

/-- A copy is of a file, and it goes to where there is no directory. -/
theorem copy_ok {source target : Path} (hcopy : t.copy source target = .ok t') :
    ∃ there content q, t.lookup source = .ok (there, .file content) ∧ t.place target = .ok q ∧
      t.entryAt q ≠ some .directory ∧ t' = t.put q (.file (if q = there then [] else content)) := by
  unfold copy at hcopy
  cases hlookup : t.lookup source with
  | error fault =>
    rw [hlookup] at hcopy
    cases hcopy
  | ok found =>
    obtain ⟨there, e⟩ := found
    simp only [hlookup, bind, Except.bind] at hcopy
    cases e with
    | directory => cases hcopy
    | link _ => cases hcopy
    | file content =>
      cases hplace : t.place target with
      | error fault =>
        rw [hplace] at hcopy
        cases hcopy
      | ok q =>
        simp only [hplace] at hcopy
        split at hcopy
        · cases hcopy
        -- anything but a directory is overwritten
        · rename_i hq
          cases hcopy
          exact ⟨there, content, q, rfl, rfl, hq, rfl⟩

/-- A file is copied to where the second path leads. -/
theorem copy_spec (h : t.IsSound) {source target : Path} (habs : target.isAbsolute = true)
    (hcopy : t.copy source target = .ok t') :
    ∃ there content q, t.lookup source = .ok (there, .file content) ∧ t.Denotes target q ∧
      Puts t q (.file (if q = there then [] else content)) t' := by
  obtain ⟨there, content, q, hlookup, hplace, hq, rfl⟩ := copy_ok hcopy
  have hp := denotes_of_place h hplace
  exact ⟨there, content, q, hlookup, hp, hp.puts h habs hq⟩

/-- A directory is made where nothing stood, and its path denotes it then. -/
theorem makeDirectory_spec (h : t.IsSound) {p : Path} (hmake : t.makeDirectory p = .ok t') :
    ∃ q, t'.Denotes p q ∧ t.entryAt q = none ∧ vet p = .ok () ∧ Puts t q .directory t' := by
  unfold makeDirectory at hmake
  cases howner : t.owner p with
  | error fault =>
    rw [howner] at hmake
    cases hmake
  | ok found =>
    obtain ⟨here, name⟩ := found
    simp only [howner, bind, Except.bind] at hmake
    cases name with
    | none => cases hmake
    | some n =>
      dsimp only at hmake
      cases hentry : t.entryAt (here ++ [n]) with
      | some e =>
        rw [hentry] at hmake
        cases hmake
      | none =>
        rw [hentry] at hmake
        cases hmake
        obtain ⟨front, hroute, hfront, hhere, hlength, hvet⟩ := owner_spec h howner
        have hn : IsName n := Path.isName_of_mem_route (p := p) (by simp [hroute])
        have hputs : Puts t (here ++ [n]) .directory (t.put (here ++ [n]) .directory) :=
          ⟨⟨here, n, rfl, hhere, hn⟩, .inl hentry, rfl⟩
        refine ⟨here ++ [n], ?_, hentry, hvet, hputs⟩
        -- the path is walked again in the new tree, up to the name that is new
        have hfront' := hfront.mono_directory hputs.carries hhere
        have hhere' := hputs.carries.directory here hhere
        obtain ⟨left, hback⟩ := hfront'.append hhere'
        rw [Denotes, hroute]
        refine (hback _ _).2 (.into hhere' hlength ?_ ?_ .here)
        · simp [hputs.entryAt_self]
        · simp [IsLink, hputs.entryAt_self]

end FileTree

end InterfacePackage
