import InterfacePackage.Path.Relative
import InterfacePackage.Proofs.Path.Components

/-!
# Ways between directories

Between two directories below a common one the way leads up out of one and down into the other,
wherever the common directory is. Main statements: `difference_names` (the way depends on the two
runs of names only), `foldl_way` (walking it leads from one to the other), `pieces_render` (a way
that is written reads back) and `mem_of_mem_relativeTo` (a way climbs, and else has steps of its
target only).
-/

namespace InterfacePackage.Path

/-! ## The way itself -/

/-- The way from the end of one run of names to the end of another that starts with it: up as often
as the first goes beyond what both share, then down the rest of the second. -/
def way : List Text → List Text → List Component
  | [], target => names target
  | base, [] => base.map fun _ => .up
  | b :: base, t :: target =>
    if b = t then way base target else ((b :: base).map fun _ => .up) ++ names (t :: target)

/-- Out of as many directories as there are names. -/
theorem map_up_names (ns : List Text) :
    (names ns).map (fun _ => Component.up) = ns.map fun _ => Component.up := by
  rw [names, List.map_map]
  rfl

/-- The way between two runs of names is their descent. -/
theorem descent_names (target base : List Text) :
    descent (names target) (names base) = some (way base target) := by
  induction base generalizing target with
  | nil => cases target <;> rfl
  | cons b base ih =>
    cases target with
    | nil => exact congrArg some (map_up_names (b :: base))
    | cons t target =>
      rw [names_cons, names_cons, descent, way]
      -- only here, where the runs part, does the way leave the shared directory
      by_cases h : b = t
      · rw [if_pos h, if_pos (congrArg Component.name h.symm), ih]
      · have hcomponent : Component.name t ≠ Component.name b :=
          fun hc => h (Component.name.inj hc).symm
        rw [if_neg h, if_neg hcomponent, if_neg (by simp), map_up_names, names_cons]
        rfl

/-- Shared components at the start have no part in a descent. -/
theorem descent_append (shared target base : List Component) :
    descent (shared ++ target) (shared ++ base) = descent target base := by
  induction shared with
  | nil => rfl
  | cons c shared ih => rw [List.cons_append, List.cons_append, descent, if_pos rfl, ih]

/-- No run of names starts at the root, so a run does not change whether its start does. -/
theorem startsAtRoot_append_names (shared : List Component) (ns : List Text) :
    startsAtRoot (shared ++ names ns) = startsAtRoot shared := by
  cases shared with
  | nil => cases ns <;> rfl
  | cons c shared => rfl

/-- From a directory below a shared one, the way to another path below it. -/
theorem difference_names (shared : List Component) (target base : List Text) :
    difference (shared ++ names target) (shared ++ names base) = some (way base target) := by
  have hroot : startsAtRoot (shared ++ names target) = startsAtRoot (shared ++ names base) := by
    rw [startsAtRoot_append_names, startsAtRoot_append_names]
  rw [difference, if_pos hroot, descent_append, descent_names]

/-- Steps up out of all directories of a run of names take these names back. -/
theorem foldl_back (base : List Text) (kept : List Component) :
    (base.map fun _ => Component.up).foldl normalStep ((names base).reverse ++ kept) = kept := by
  have hlength : (base.map fun _ => Component.up) = base.reverse.map fun _ => Component.up := by
    rw [List.map_const', List.map_const', List.length_reverse]
  rw [hlength, names, ← List.map_reverse]
  exact foldl_ups base.reverse kept

/-- Walking the way leads from the one directory to the other. -/
theorem foldl_way (base target : List Text) (kept : List Component) :
    (way base target).foldl normalStep ((names base).reverse ++ kept)
      = (names target).reverse ++ kept := by
  induction base generalizing target kept with
  | nil =>
    rw [way, foldl_names]
    rfl
  | cons b base ih =>
    cases target with
    | nil => exact foldl_back (b :: base) kept
    | cons t target =>
      rw [way]
      split
      · rename_i h
        subst h
        have hshared := ih target (.name b :: kept)
        simpa using hshared
      · -- where the runs part, all names left in the first one are taken back
        rw [List.foldl_append, foldl_back, foldl_names]

/-! ## Writing a way -/

/-- All steps of a way between runs of normal names are pieces. -/
theorem isPiece_of_mem_way {base target : List Text} (h : ∀ n ∈ target, IsNormal n) :
    ∀ c ∈ way base target, IsPiece c := by
  have hups : ∀ ns : List Text, ∀ c ∈ ns.map (fun _ => Component.up), IsPiece c := by
    intro ns c hc
    obtain ⟨n, -, rfl⟩ := List.mem_map.1 hc
    trivial
  induction base generalizing target with
  | nil => exact isPiece_of_mem_names h
  | cons b base ih =>
    cases target with
    | nil => exact hups (b :: base)
    | cons t target =>
      rw [way]
      split
      · exact ih fun n hn => h n (List.mem_cons_of_mem _ hn)
      · intro c hc
        exact (List.mem_append.1 hc).elim (hups (b :: base) c) (isPiece_of_mem_names h c)

/-- Components that pieces stand for are written one after another. -/
theorem render_of_isPiece {cs : List Component} (h : ∀ c ∈ cs, IsPiece c) :
    render cs = Text.join ['/'] (cs.map Component.text) := by
  cases cs with
  | nil => rfl
  | cons c cs =>
    cases c with
    | root => exact (h .root List.mem_cons_self).elim
    | _ => rfl

/-- The pieces of a written way are its components. -/
theorem pieces_render {cs : List Component} (h : ∀ c ∈ cs, IsPiece c) :
    pieces (render cs) = cs := by
  rw [render_of_isPiece h, pieces_join_text h]

/-- A written way is a relative path. -/
theorem isAbsolute_render {cs : List Component} (h : ∀ c ∈ cs, IsPiece c) :
    isAbsolute (render cs) = false := by
  rw [render_of_isPiece h, isAbsolute_join_text h]

/-- A written way is empty only if it has no steps. -/
theorem eq_nil_of_render_eq_nil {cs : List Component} (h : ∀ c ∈ cs, IsPiece c)
    (hrender : render cs = []) : cs = [] := by
  have hpieces := pieces_render h
  rw [hrender, pieces_nil] at hpieces
  exact hpieces.symm

/-- What is written is slashes and the texts of the components. -/
theorem mem_of_mem_render {cs : List Component} {c : Char} (h : c ∈ render cs) :
    c = '/' ∨ ∃ x ∈ cs, c ∈ x.text := by
  have hjoin : ∀ xs : List Component, c ∈ Text.join ['/'] (xs.map Component.text) →
      c = '/' ∨ ∃ x ∈ xs, c ∈ x.text := by
    intro xs hc
    rcases Text.mem_of_mem_join hc with hslash | ⟨t, ht, hc⟩
    · exact .inl (List.mem_singleton.1 hslash)
    · obtain ⟨x, hx, rfl⟩ := List.mem_map.1 ht
      exact .inr ⟨x, hx, hc⟩
  unfold render at h
  split at h
  · rename_i rest
    rcases List.mem_cons.1 h with hc | h
    · exact .inl hc
    · exact (hjoin rest h).imp_right fun ⟨x, hx, hc⟩ => ⟨x, List.mem_cons_of_mem _ hx, hc⟩
  · exact hjoin cs h

/-! ## The steps of a way -/

/-- Normalising adds no components. -/
theorem mem_of_mem_normalize {cs : List Component} {x : Component} (h : x ∈ normalize cs) :
    x ∈ cs := by
  have hstep : ∀ kept c, x ∈ normalStep kept c → x ∈ kept ∨ x = c := by
    intro kept c hx
    unfold normalStep at hx
    split at hx
    · exact .inl hx
    · split at hx
      · exact .inl (List.mem_cons_of_mem _ hx)
      · exact .inl hx
      · exact (List.mem_cons.1 hx).symm
    · exact (List.mem_cons.1 hx).symm
  have hfold : ∀ kept, x ∈ cs.foldl normalStep kept → x ∈ kept ∨ x ∈ cs := by
    clear h
    induction cs with
    | nil => exact fun kept hx => .inl hx
    | cons c cs ih =>
      intro kept hx
      rcases ih _ hx with hx | hx
      · exact (hstep kept c hx).imp_right fun (hxc : x = c) => hxc ▸ List.mem_cons_self
      · exact .inr (List.mem_cons_of_mem _ hx)
  exact (hfold [] (List.mem_reverse.1 h)).resolve_left List.not_mem_nil

/-- A descent climbs, and else has components of its target only. -/
theorem mem_of_mem_descent {target base way : List Component} {x : Component}
    (hway : descent target base = some way) (h : x ∈ way) : x ∈ target ∨ x = .up := by
  have hups : ∀ cs : List Component, x ∈ cs.map (fun _ => Component.up) → x = .up := by
    intro cs hx
    obtain ⟨-, -, rfl⟩ := List.mem_map.1 hx
    rfl
  fun_induction descent target base with
  | case1 target => exact .inl (Option.some.inj hway ▸ h)
  | case2 b base => exact .inr (hups _ (Option.some.inj hway ▸ h))
  | case3 t target base ih => exact (ih hway).imp_left (List.mem_cons_of_mem _)
  | case4 => cases hway
  | case5 t target b base =>
    rw [← Option.some.inj hway] at h
    rcases List.mem_append.1 h with hx | hx
    · exact .inr (hups (b :: base) hx)
    · exact .inl hx

/-- A way climbs, and else has components of its target only. -/
theorem mem_of_mem_relativeTo {target base : Path} {x : Component}
    (h : x ∈ relativeTo target base) : x ∈ target.components ∨ x = .up := by
  rw [relativeTo] at h
  cases hdifference : difference (normalize target.components) (normalize base.components) with
  | none =>
    rw [hdifference] at h
    exact .inl (mem_of_mem_normalize h)
  | some way =>
    rw [hdifference] at h
    unfold difference at hdifference
    split at hdifference
    · exact (mem_of_mem_descent hdifference h).imp_left mem_of_mem_normalize
    · split at hdifference
      · exact .inl (mem_of_mem_normalize (Option.some.inj hdifference ▸ h))
      · cases hdifference

end InterfacePackage.Path
