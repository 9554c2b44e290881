import InterfacePackage.Path.Normal
import InterfacePackage.Proofs.FileTree.Proper
import InterfacePackage.Proofs.FileTree.Route

/-!
# Paths without links

In a tree without links a path leads where its spelling says, so what an absolute path denotes can
be told from its components. Main statements: `Reaches.place_eq`, `Denotes.eq_endpoint` and
`confine_components`.
-/

namespace InterfacePackage

/-- Where a step leads by its spelling. -/
def Step.move (here : Place) : Step → Place
  | .stay => here
  | .up => here.dropLast
  | .into n => here ++ [n]

/-- Where an absolute path leads by its spelling. -/
def Path.endpoint (p : Path) : Place := p.route.foldl Step.move []

/-- Steps that do not climb lead down. -/
theorem exists_append_of_foldl_move {steps : List Step} (h : .up ∉ steps) (here : Place) :
    ∃ names, steps.foldl Step.move here = here ++ names := by
  induction steps generalizing here with
  | nil => exact ⟨[], (List.append_nil here).symm⟩
  | cons step steps ih =>
    rw [List.mem_cons, not_or] at h
    rw [List.foldl_cons]
    cases step with
    | stay => exact ih h.2 here
    | up => exact absurd rfl h.1
    | into n =>
      obtain ⟨names, hnames⟩ := ih h.2 (here ++ [n])
      exact ⟨n :: names, by rw [Step.move, hnames, List.append_assoc, List.singleton_append]⟩

namespace FileTree

variable {t : FileTree}

/-- There are no links in a tree. -/
def IsLinkless (t : FileTree) : Prop := ∀ q, ¬ IsLink (t.entryAt q)

/-- A tree has no links if it lists none. -/
theorem isLinkless_iff : t.IsLinkless ↔ ∀ x ∈ t.below [], ¬ IsLink (some x.2) := by
  constructor
  · rintro h ⟨q, e⟩ hmem
    rw [← (mem_below_iff.1 hmem).2]
    exact h q
  · rintro h q ⟨target, hq⟩
    have hne : q ≠ [] := by
      rintro rfl
      rw [entryAt_root] at hq
      cases hq
    exact h (q, .link target) (mem_below_iff.2 ⟨isBelow_append [] hne, hq⟩) ⟨target, rfl⟩

instance (e : Entry) : Decidable (IsLink (some e)) :=
  match e with
  | .file _ => .isFalse fun ⟨_, h⟩ => nomatch h
  | .directory => .isFalse fun ⟨_, h⟩ => nomatch h
  | .link target => .isTrue ⟨target, rfl⟩

instance (t : FileTree) : Decidable t.IsLinkless := decidable_of_iff _ isLinkless_iff.symm

/-- Without links steps lead where their spelling says. -/
theorem Reaches.place_eq (hlinks : t.IsLinkless) {links : Nat} {here there : Place}
    {steps : List Step} (h : Reaches t links here steps there) :
    there = steps.foldl Step.move here := by
  induction h with
  | here => rfl
  | stay _ _ ih => exact ih
  | up _ _ ih => exact ih
  | fresh _ _ _ => rfl
  | into _ _ _ _ _ ih => exact ih
  | jump _ _ hlink _ _ => exact absurd ⟨_, hlink⟩ (hlinks _)

end FileTree

namespace Path

/-- A piece of a path stands for a step up or for a name. -/
theorem up_or_name_of_mem_pieces {p : Path} {c : Component} (h : c ∈ p.pieces) :
    c = .up ∨ ∃ n, c = .name n := by
  have hpiece := isPiece_of_mem_pieces h
  cases c with
  | root => exact hpiece.elim
  | here => exact hpiece.elim
  | up => exact .inl rfl
  | name n => exact .inr ⟨n, rfl⟩

/-- Steps up and names, met below the root with some names kept, keep the names that lead where the
steps do. -/
theorem foldl_confineStep {cs : List Component} (h : ∀ c ∈ cs, c = .up ∨ ∃ n, c = .name n)
    (ns : List Text) :
    ∃ ms : List Text, cs.foldl confineStep ((names ns).reverse ++ [.root])
        = (names ms).reverse ++ [.root] ∧
      (cs.map Step.ofComponent).foldl Step.move (ns.map Utf8.encode) = ms.map Utf8.encode := by
  induction cs generalizing ns with
  | nil => exact ⟨ns, rfl, rfl⟩
  | cons c cs ih =>
    have hrest : ∀ c ∈ cs, c = .up ∨ ∃ n, c = .name n := fun d hd => h d (List.mem_cons_of_mem _ hd)
    rcases h c List.mem_cons_self with rfl | ⟨n, rfl⟩
    · -- a step up takes the last name away, and does nothing at the root
      rcases List.eq_nil_or_concat ns with rfl | ⟨above, last, rfl⟩
      · exact ih hrest []
      · obtain ⟨ms, hkept, hplace⟩ := ih hrest above
        refine ⟨ms, ?_, ?_⟩
        · rw [List.concat_eq_append, names_append, List.reverse_append]
          exact hkept
        · rw [List.map_cons, List.foldl_cons, List.concat_eq_append, List.map_append,
            List.map_singleton, ← hplace]
          simp only [Step.ofComponent, Step.move, List.dropLast_concat]
    · obtain ⟨ms, hkept, hplace⟩ := ih hrest (ns ++ [n])
      refine ⟨ms, ?_, ?_⟩
      · rw [names_append, List.reverse_append] at hkept
        exact hkept
      · rw [List.map_append] at hplace
        exact hplace

/-- The components of an absolute path, confined, are the root and the names of the place that its
spelling leads to. -/
theorem confine_components {p : Path} (habs : p.isAbsolute = true) :
    ∃ ns : List Text, confine p.components = .root :: names ns ∧
      p.endpoint = ns.map Utf8.encode := by
  obtain ⟨ns, hkept, hplace⟩ :=
    foldl_confineStep (fun c hc => up_or_name_of_mem_pieces (p := p) hc) []
  refine ⟨ns, ?_, hplace⟩
  have hopening : p.opening = [.root] := by rw [opening, habs, if_pos rfl]
  rw [confine, components_eq, hopening, List.singleton_append, List.foldl_cons]
  change (p.pieces.foldl confineStep ((names []).reverse ++ [.root])).reverse = _
  rw [hkept]
  simp

end Path

namespace FileTree

variable {t : FileTree}

/-- Without links an absolute path denotes the place that its spelling leads to. -/
theorem Denotes.eq_endpoint (hlinks : t.IsLinkless) {p : Path} {q : Place}
    (habs : p.isAbsolute = true) (h : t.Denotes p q) : q = p.endpoint := by
  have hstart : t.startOf p = [] := if_pos habs
  rw [Reaches.place_eq hlinks h, hstart, Path.endpoint]

end FileTree

end InterfacePackage
