import InterfacePackage.Proofs.FileTree.Build
import InterfacePackage.Proofs.FileTree.Lexical

/-!
# Where the spelling of a path leads

In a tree without links a path leads where its spelling says, but only if it is a directory that it
passes at each step. So an absolute path denotes a directory exactly if the paths above it do and
directories stand where their spellings lead. Main statements: `endpoint_of_parent`,
`denotesDirectory_iff_of_parent` (one step of a path), `denotesDirectory_iff` (the whole path) and
`denotesDirectory_iff_of_climbs` (steps up alone have to be looked after).
-/

namespace InterfacePackage

namespace Path

variable {p above : Path}

/-- A path leads one step on from where the path above it does. -/
theorem endpoint_of_parent (habs : p.isAbsolute = true) (h : p.parent = some above) :
    above.isAbsolute = true ∧
      ((p.pieces = above.pieces ++ [.up] ∧ p.endpoint = above.endpoint.dropLast) ∨
        ∃ n, p.pieces = above.pieces ++ [.name n] ∧
          p.endpoint = above.endpoint ++ [Utf8.encode n]) := by
  obtain ⟨habove, c, hpieces⟩ := parent_spec habs h
  have hendpoint : p.endpoint = (Step.ofComponent c).move above.endpoint := by
    rw [endpoint, route, hpieces, List.map_append, List.foldl_append]
    rfl
  refine ⟨habove, ?_⟩
  rcases up_or_name_of_mem_pieces (p := p) (c := c) (by simp [hpieces]) with rfl | ⟨n, rfl⟩
  · exact .inl ⟨hpieces, hendpoint⟩
  · exact .inr ⟨n, hpieces, hendpoint⟩

/-- A path with nothing above it has no steps. -/
theorem route_of_parent_eq_none (habs : p.isAbsolute = true) (h : p.parent = none) :
    p.route = [] := by
  rw [route, pieces_of_parent_eq_none habs h]
  rfl

/-- A path with nothing above it leads to the root. -/
theorem endpoint_of_parent_eq_none (habs : p.isAbsolute = true) (h : p.parent = none) :
    p.endpoint = [] := by
  rw [endpoint, route_of_parent_eq_none habs h]
  rfl

/-- The paths above one that does not climb lead to places on the way to where it leads. -/
theorem endpoint_prefix_of_up_notMem (habs : p.isAbsolute = true) (h : .up ∉ p.components)
    (habove : above ∈ p.ancestors) : above.endpoint <+: p.endpoint := by
  obtain ⟨-, back, hpieces⟩ := pieces_of_mem_ancestors habs habove
  have hroute : p.route = above.route ++ back.map Step.ofComponent := by
    rw [route, hpieces, List.map_append]
    rfl
  have hup := FileTree.up_notMem_route h
  rw [hroute, List.mem_append, not_or] at hup
  obtain ⟨names, hend⟩ := exists_append_of_foldl_move hup.2 above.endpoint
  refine ⟨names, ?_⟩
  rw [endpoint, endpoint, hroute, List.foldl_append, ← endpoint, hend]

/-- For every place on the way to where a path leads there is a path above it that leads there, and
those before it lead to that place or below it. -/
theorem exists_ancestor_leading_to (habs : p.isAbsolute = true) {r : Place}
    (hr : r <+: p.endpoint) :
    ∃ before above after, p.ancestors = before ++ above :: after ∧ above.endpoint = r ∧
      ∀ x ∈ before, r <+: x.endpoint := by
  refine parent_induction (P := fun p => r <+: p.endpoint → ∃ before above after,
    p.ancestors = before ++ above :: after ∧ above.endpoint = r ∧
      ∀ x ∈ before, r <+: x.endpoint) ?_ ?_ habs hr
  · intro p habs hparent hr
    rw [endpoint_of_parent_eq_none habs hparent, List.prefix_nil] at hr
    refine ⟨[], p, [], ancestors_of_parent_eq_none hparent, ?_, nofun⟩
    rw [endpoint_of_parent_eq_none habs hparent, hr]
  · intro p up habs hparent ih hr
    -- either the place is the path's own or it is on the way of the path above as well
    have hup : p.endpoint = r ∨ r <+: up.endpoint := by
      obtain ⟨-, ⟨-, hend⟩ | ⟨n, -, hend⟩⟩ := endpoint_of_parent habs hparent
      · rw [hend] at hr
        exact .inr (hr.trans (List.dropLast_prefix _))
      · rw [hend, List.prefix_concat_iff] at hr
        exact hr.imp (fun h => hend.trans h.symm) id
    rw [ancestors_of_parent hparent]
    rcases hup with hself | hup
    · exact ⟨[], p, up.ancestors, rfl, hself, nofun⟩
    · obtain ⟨before, above, after, hancestors, habove, hbefore⟩ := ih hup
      refine ⟨p :: before, above, after, by rw [hancestors, List.cons_append], habove, ?_⟩
      exact List.forall_mem_cons.2 ⟨hr, hbefore⟩

/-- The components of an absolute path are the root and its pieces. -/
theorem components_of_isAbsolute (habs : p.isAbsolute = true) :
    p.components = .root :: p.pieces := by
  rw [components_eq, opening, habs, if_pos rfl, List.singleton_append]

/-- The components of an absolute path, put together again, are a path with the same route. -/
theorem route_render_components (habs : p.isAbsolute = true) :
    (render p.components).isAbsolute = true ∧ (render p.components).route = p.route := by
  have hslash : pieces ('/' :: Text.join ['/'] (p.pieces.map Component.text))
      = pieces (Text.join ['/'] (p.pieces.map Component.text)) := pieces_slash [] _
  rw [components_of_isAbsolute habs]
  refine ⟨rfl, ?_⟩
  rw [route, render, hslash, pieces_join_text fun c hc => isPiece_of_mem_pieces hc, route]

end Path

namespace FileTree

variable {t : FileTree} {p above : Path} {q : Place}

/-! ## Directories that can be entered -/

/-- A directory stands there, and no name on the way to it is too long. -/
structure Enterable (t : FileTree) (q : Place) : Prop where
  directory : t.entryAt q = some .directory
  short : ∀ n ∈ q, n.length ≤ nameLimit

/-- The root can be entered. -/
theorem enterable_root (t : FileTree) : t.Enterable [] := ⟨rfl, nofun⟩

/-- So can every directory around one that can. -/
theorem Enterable.around (h : t.Enterable q) (ht : t.IsSound) {r : Place} (hr : r <+: q) :
    t.Enterable r := by
  obtain ⟨rest, rfl⟩ := hr
  exact ⟨ht.above h.directory, fun n hn => h.short n (List.mem_append_left _ hn)⟩

/-- A directory that is reached by names that are not too long can be entered. -/
theorem Reaches.enterable (hlinks : t.IsLinkless) {links : Nat} {here there : Place}
    {steps : List Step} (h : Reaches t links here steps there)
    (hhere : ∀ n ∈ here, n.length ≤ nameLimit) (hthere : t.entryAt there = some .directory) :
    t.Enterable there := by
  have hsnoc : ∀ {q : Place} {n : Name}, (∀ m ∈ q, m.length ≤ nameLimit) → n.length ≤ nameLimit →
      ∀ m ∈ q ++ [n], m.length ≤ nameLimit := by
    intro q n hq hn m hm
    rcases List.mem_append.1 hm with hm | hm
    · exact hq m hm
    · rw [List.mem_singleton.1 hm]
      exact hn
  induction h with
  | here => exact ⟨hthere, hhere⟩
  | stay _ _ ih => exact ih hhere hthere
  | up _ _ ih => exact ih (fun n hn => hhere n (List.dropLast_subset _ hn)) hthere
  | fresh _ hn _ => exact ⟨hthere, hsnoc hhere hn⟩
  | into _ hn _ _ _ ih => exact ih (hsnoc hhere hn) hthere
  | jump _ _ hlink _ _ => exact absurd ⟨_, hlink⟩ (hlinks _)

/-! ## Paths that denote directories -/

/-- A path denotes a directory, however long it is. -/
def DenotesDirectory (t : FileTree) (p : Path) : Prop :=
  ∃ q, t.Denotes p q ∧ t.entryAt q = some .directory

/-- What is looked up and found to be a directory is one. -/
theorem denotesDirectory_of_lookup (ht : t.IsSound) (h : t.lookup p = .ok (q, .directory)) :
    t.DenotesDirectory p := by
  obtain ⟨hdenotes, hdirectory, -⟩ := denotes_of_lookup ht h
  exact ⟨q, hdenotes, hdirectory⟩

/-- Without links the directory stands where the spelling of the path leads. -/
theorem DenotesDirectory.denotes (h : t.DenotesDirectory p) (hlinks : t.IsLinkless)
    (habs : p.isAbsolute = true) : t.Denotes p p.endpoint ∧ t.Enterable p.endpoint := by
  obtain ⟨q, hdenotes, hdirectory⟩ := h
  obtain rfl := hdenotes.eq_endpoint hlinks habs
  refine ⟨hdenotes, Reaches.enterable hlinks hdenotes ?_ hdirectory⟩
  rw [startOf_of_isAbsolute t habs]
  exact nofun

/-- Absolute paths with one route denote directories alike. -/
theorem denotesDirectory_congr {p' : Path} (habs : p.isAbsolute = true)
    (habs' : p'.isAbsolute = true) (hroute : p'.route = p.route) :
    t.DenotesDirectory p' ↔ t.DenotesDirectory p := by
  rw [DenotesDirectory, DenotesDirectory]
  simp only [Denotes, startOf_of_isAbsolute t habs, startOf_of_isAbsolute t habs', hroute]

section

variable (hlinks : t.IsLinkless)

include hlinks

/-- A path denotes a directory exactly if the one above it does and its own last step leads into
one. -/
theorem denotesDirectory_iff_of_parent (habs : p.isAbsolute = true) (h : p.parent = some above) :
    t.DenotesDirectory p ↔ t.DenotesDirectory above ∧ t.Enterable p.endpoint := by
  obtain ⟨habove, hlast⟩ := Path.endpoint_of_parent habs h
  have hroute : ∀ c : Component, p.pieces = above.pieces ++ [c] →
      p.route = above.route ++ [Step.ofComponent c] := by
    intro c hc
    rw [Path.route, hc, List.map_append]
    rfl
  constructor
  · intro hp
    refine ⟨?_, (hp.denotes hlinks habs).2⟩
    obtain ⟨q, hdenotes, -⟩ := hp
    rw [Denotes, startOf_of_isAbsolute t habs] at hdenotes
    -- the walk goes on behind the path above, which so led to a directory
    obtain ⟨c, hc⟩ := (Path.parent_spec habs h).2
    rw [hroute c hc] at hdenotes
    obtain ⟨middle, hfront, hmiddle⟩ := hdenotes.split (List.cons_ne_nil _ _)
    rw [← startOf_of_isAbsolute t habove] at hfront
    exact ⟨middle, hfront, hmiddle⟩
  · rintro ⟨hup, henter⟩
    obtain ⟨hdenotes, hfrom⟩ := hup.denotes hlinks habove
    obtain ⟨left, hback⟩ := Reaches.append hdenotes hfrom.directory
    refine ⟨p.endpoint, ?_, henter.directory⟩
    rw [Denotes, startOf_of_isAbsolute t habs, ← startOf_of_isAbsolute t habove]
    rcases hlast with ⟨hpieces, hend⟩ | ⟨n, hpieces, hend⟩
    · rw [hroute _ hpieces, hback, hend]
      exact .up hfrom.directory .here
    · rw [hroute _ hpieces, hback, hend]
      rw [hend] at henter
      exact .into hfrom.directory (henter.short _ (by simp)) (by simp [henter.directory])
        (by simp [IsLink, henter.directory]) .here

/-- A path denotes a directory exactly if its spelling and those of all paths above it lead into
directories. -/
theorem denotesDirectory_iff (habs : p.isAbsolute = true) :
    t.DenotesDirectory p ↔ ∀ above ∈ p.ancestors, t.Enterable above.endpoint := by
  refine Path.parent_induction (P := fun p => t.DenotesDirectory p ↔
    ∀ above ∈ p.ancestors, t.Enterable above.endpoint) ?_ ?_ habs
  · intro p habs hparent
    rw [Path.ancestors_of_parent_eq_none hparent, List.forall_mem_singleton,
      Path.endpoint_of_parent_eq_none habs hparent]
    refine ⟨fun _ => enterable_root t, fun _ => ⟨[], ?_, rfl⟩⟩
    rw [Denotes, startOf_of_isAbsolute t habs, Path.route_of_parent_eq_none habs hparent]
    exact .here
  · intro p above habs hparent ih
    rw [Path.ancestors_of_parent hparent, List.forall_mem_cons, ← ih,
      denotesDirectory_iff_of_parent hlinks habs hparent, and_comm]

/-- Every path above one that denotes a directory denotes a directory. -/
theorem DenotesDirectory.of_mem_ancestors (h : t.DenotesDirectory p) (habs : p.isAbsolute = true)
    (habove : above ∈ p.ancestors) : t.DenotesDirectory above :=
  Path.of_mem_ancestors
    (fun _ _ hx hparent hdir => ((denotesDirectory_iff_of_parent hlinks hx hparent).1 hdir).1)
    habs habove h

end

/-! ## Paths that climb -/

/-- What stands before each `..` of a path denotes a directory. -/
def ClimbsFromDirectories (t : FileTree) (p : Path) : Prop :=
  ∀ k, p.components[k]? = some .up → t.DenotesDirectory (Path.render (p.components.take k))

/-- To tell that, the components of the path are gone through. -/
theorem climbsFromDirectories_of_forall (ht : t.IsSound)
    (h : ∀ k < p.components.length, p.components[k]? = some .up →
      t.isDirectory (Path.render (p.components.take k)) = true) : t.ClimbsFromDirectories p := by
  intro k hk
  obtain ⟨hlength, -⟩ := List.getElem?_eq_some_iff.1 hk
  obtain ⟨q, hlookup⟩ := lookup_of_isDirectory (h k hlength hk)
  exact denotesDirectory_of_lookup ht hlookup

/-- A path that does not climb has nothing to climb from. -/
theorem climbsFromDirectories_of_up_notMem (h : .up ∉ p.components) : t.ClimbsFromDirectories p :=
  fun _ hk => absurd (List.mem_of_getElem? hk) h

/-- The path above climbs from the directories that the path does, and a step up at the end climbs
from what the path above denotes. -/
theorem ClimbsFromDirectories.of_parent (h : t.ClimbsFromDirectories p) (habs : p.isAbsolute = true)
    (hparent : p.parent = some above) :
    t.ClimbsFromDirectories above ∧
      (p.pieces = above.pieces ++ [.up] → t.DenotesDirectory above) := by
  obtain ⟨habove, c, hpieces⟩ := Path.parent_spec habs hparent
  have hcomponents : p.components = above.components ++ [c] := by
    rw [Path.components_of_isAbsolute habs, Path.components_of_isAbsolute habove, hpieces,
      List.cons_append]
  constructor
  · intro k hk
    obtain ⟨hlength, -⟩ := List.getElem?_eq_some_iff.1 hk
    have hup := h k (by rw [hcomponents, List.getElem?_append_left hlength, hk])
    rwa [hcomponents, List.take_append_of_le_length (Nat.le_of_lt hlength)] at hup
  · intro hlast
    obtain ⟨-, hc⟩ := List.append_inj' (hpieces.symm.trans hlast) rfl
    have hup := h above.components.length (by
      rw [hcomponents, List.getElem?_concat_length]
      exact congrArg List.head? hc)
    rw [hcomponents, List.take_left] at hup
    obtain ⟨habs', hroute⟩ := Path.route_render_components habove
    exact (denotesDirectory_congr habove habs' hroute).1 hup

/-- A path that climbs from directories only denotes a directory exactly if its spelling leads into
one. -/
theorem denotesDirectory_iff_of_climbs (ht : t.IsSound) (hlinks : t.IsLinkless)
    (habs : p.isAbsolute = true) (hclimbs : t.ClimbsFromDirectories p) :
    t.DenotesDirectory p ↔ t.Enterable p.endpoint := by
  refine ⟨fun h => (h.denotes hlinks habs).2, fun h => ?_⟩
  refine Path.parent_induction (P := fun p => t.ClimbsFromDirectories p →
    t.Enterable p.endpoint → t.DenotesDirectory p) ?_ ?_ habs hclimbs h
  · intro p habs hparent _ henter
    rw [denotesDirectory_iff hlinks habs, Path.ancestors_of_parent_eq_none hparent,
      List.forall_mem_singleton]
    exact henter
  · intro p above habs hparent ih hclimbs henter
    obtain ⟨hclimbsAbove, hup⟩ := hclimbs.of_parent habs hparent
    refine (denotesDirectory_iff_of_parent hlinks habs hparent).2 ⟨?_, henter⟩
    obtain ⟨-, ⟨hpieces, -⟩ | ⟨n, -, hend⟩⟩ := Path.endpoint_of_parent habs hparent
    · exact hup hpieces
    · -- a name at the end leads on from the directory around its place
      refine ih hclimbsAbove ?_
      exact henter.around ht (hend ▸ List.prefix_append _ _)

end FileTree

end InterfacePackage
