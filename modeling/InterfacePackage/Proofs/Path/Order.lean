import InterfacePackage.Proofs.Path.Components
import Mathlib.Data.List.Sort

/-!
# The order of paths

Paths are ordered by their components, kinds of components among each other and names by their
characters. Main statements: `pairwise_mergeSort_compare` (sorting by this order sorts),
`eq_of_compare_join_names` (below one directory no two paths of different names are equal in it) and
`compare_join_names` (which of them comes first is the same below any directory).
-/

namespace InterfacePackage

namespace Component

/-- The name of a component that has one. -/
def nameOrEmpty : Component → Text
  | name n => n
  | _ => []

/-- Components compare by kind, then by name. -/
theorem compare_eq : Component.compare = compareLex (compareOn rank) (compareOn nameOrEmpty) := by
  funext a b
  cases a with
  | name n =>
    cases b with
    | name m => rfl
    | _ => rfl
  | _ => cases b <;> rfl

instance : Std.TransCmp Component.compare := by
  rw [compare_eq]
  infer_instance

instance : Std.LawfulEqCmp Component.compare where
  eq_of_compare {a b} h := by
    rw [compare_eq, compareLex_eq_eq] at h
    have hrank : a.rank = b.rank := Std.LawfulEqOrd.eq_of_compare h.1
    have hname : a.nameOrEmpty = b.nameOrEmpty := Std.LawfulEqOrd.eq_of_compare h.2
    cases a <;> cases b <;> first | rfl | exact congrArg name hname | cases hrank

end Component

namespace Path

/-- Lists of components compare as lists do. -/
theorem compareComponents_eq : compareComponents = List.compareLex Component.compare := by
  funext as bs
  induction as generalizing bs with
  | nil => cases bs <;> rfl
  | cons a as ih =>
    cases bs with
    | nil => rfl
    | cons b bs => rw [compareComponents, List.compareLex_cons_cons, ih]

instance : Std.TransCmp compareComponents := by
  rw [compareComponents_eq]
  infer_instance

instance : Std.LawfulEqCmp compareComponents := by
  rw [compareComponents_eq]
  infer_instance

theorem compare_self (p : Path) : p.compare p = .eq := by
  show compareComponents p.components p.components = .eq
  exact Std.ReflCmp.compare_self

/-- What comes before or with a path that comes before or with another comes before or with that. -/
theorem compare_trans {p q r : Path} (hpq : p.compare q ≠ .gt) (hqr : q.compare r ≠ .gt) :
    p.compare r ≠ .gt := by
  have hpq' : (compareComponents p.components q.components).isLE := Ordering.isLE_iff_ne_gt.2 hpq
  have hqr' : (compareComponents q.components r.components).isLE := Ordering.isLE_iff_ne_gt.2 hqr
  have hpr : (compareComponents p.components r.components).isLE :=
    Std.TransCmp.isLE_trans hpq' hqr'
  exact Ordering.isLE_iff_ne_gt.1 hpr

/-- Of two paths one comes before the other or with it. -/
theorem compare_total (p q : Path) : p.compare q ≠ .gt ∨ q.compare p ≠ .gt := by
  have hswap : p.compare q = (q.compare p).swap := by
    show compareComponents p.components q.components = (compareComponents _ _).swap
    exact Std.OrientedCmp.eq_swap
  cases hqp : q.compare p with
  | gt =>
    rw [hqp] at hswap
    exact .inl (by simp [hswap])
  | _ => exact .inr nofun

/-- Paths are sorted by a test that is transitive, -/
theorem decide_compare_trans (p q r : Path) (hpq : decide (p.compare q ≠ .gt) = true)
    (hqr : decide (q.compare r ≠ .gt) = true) : decide (p.compare r ≠ .gt) = true :=
  decide_eq_true (compare_trans (of_decide_eq_true hpq) (of_decide_eq_true hqr))

/-- and that puts any two paths in order. -/
theorem decide_compare_total (p q : Path) :
    (decide (p.compare q ≠ .gt) || decide (q.compare p ≠ .gt)) = true := by
  rw [Bool.or_eq_true, decide_eq_true_iff, decide_eq_true_iff]
  exact compare_total p q

/-- Paths that are sorted are in order. -/
theorem pairwise_mergeSort_compare (ps : List Path) :
    (ps.mergeSort fun a b => a.compare b ≠ .gt).Pairwise fun a b => a.compare b ≠ .gt :=
  (List.pairwise_mergeSort decide_compare_trans decide_compare_total ps).imp of_decide_eq_true

/-- Paths are sorted by inserting each of them before those that do not come before it. Merging does
not evaluate in a proof, inserting does. -/
theorem mergeSort_compare_eq_insertionSort (ps : List Path) :
    (ps.mergeSort fun a b => a.compare b ≠ .gt)
      = ps.insertionSort fun a b => a.compare b ≠ .gt := by
  induction ps with
  | nil => simp
  | cons p ps ih =>
    obtain ⟨before, after, hsorted, hrest, hbefore⟩ :=
      List.mergeSort_cons decide_compare_trans decide_compare_total p ps
    have hafter : ∀ q ∈ after, p.compare q ≠ .gt := by
      have hpairwise := pairwise_mergeSort_compare (p :: ps)
      rw [hsorted] at hpairwise
      exact (List.pairwise_cons.1 (List.pairwise_append.1 hpairwise).2.1).1
    have hskip : ∀ q ∈ before, decide (¬ p.compare q ≠ .gt) = true := fun q hq => by
      simpa using hbefore q hq
    rw [hsorted, List.insertionSort_cons, ← ih, hrest, List.orderedInsert_eq_take_drop,
      List.takeWhile_append_of_pos hskip, List.dropWhile_append_of_pos hskip]
    cases after with
    | nil => simp
    | cons q after => simp [hafter q List.mem_cons_self]

/-- Paths that go on by different names from the same one are told apart by the order. -/
theorem eq_of_compare_join_names (a : Path) {ns ms : List Text} (hns : ∀ n ∈ ns, IsNormal n)
    (hms : ∀ m ∈ ms, IsNormal m)
    (h : (a.join (Text.join ['/'] ns)).compare (a.join (Text.join ['/'] ms)) = .eq) : ns = ms := by
  have hcomponents : (a.join (Text.join ['/'] ns)).components
      = (a.join (Text.join ['/'] ms)).components := Std.LawfulEqCmp.eq_of_compare h
  rw [components_join_names a hns, components_join_names a hms] at hcomponents
  exact (List.map_inj_right fun _ _ => Component.name.inj).1 (List.append_cancel_left hcomponents)

/-- Components at the start that are the same have no part in the order. -/
theorem compareComponents_append (front as bs : List Component) :
    compareComponents (front ++ as) (front ++ bs) = compareComponents as bs := by
  induction front with
  | nil => rfl
  | cons c front ih =>
    have hself : c.compare c = .eq := Std.ReflCmp.compare_self
    rw [List.cons_append, List.cons_append, compareComponents, hself, ih]
    rfl

/-- Paths that go on by names are in the order of the names, wherever they go on from. -/
theorem compare_join_names (a b : Path) {ns ms : List Text} (hns : ∀ n ∈ ns, IsNormal n)
    (hms : ∀ m ∈ ms, IsNormal m) :
    (a.join (Text.join ['/'] ns)).compare (a.join (Text.join ['/'] ms))
      = (b.join (Text.join ['/'] ns)).compare (b.join (Text.join ['/'] ms)) := by
  unfold compare
  rw [components_join_names a hns, components_join_names a hms, components_join_names b hns,
    components_join_names b hms, compareComponents_append, compareComponents_append]

end Path

end InterfacePackage
