import InterfacePackage.Proofs.Path.Way

/-!
# Normal forms and the ways between them

In normal form a path is a stem and names below it. The stem of an absolute path is the root, that
of a relative one is a `..` for each directory it climbs out of. From one relative path to another
there is a way as long as the first does not climb higher than the second. Main statements:
`isNormalForm_normalize` (what normalising leaves), `exists_descent` (the way, and that it leads to
its target) and `descent_of_steeper` (a path that climbs higher has no way to a name).
-/

namespace InterfacePackage.Path

/-! ## Normal forms -/

/-- What a path in normal form starts with: the root of an absolute path, and as many `..` as a
relative one climbs. -/
inductive IsStem : Bool → List Component → Prop
  | root : IsStem true [.root]
  | climb (n : Nat) : IsStem false (List.replicate n .up)

/-- A stem and normal names below it. -/
def IsNormalForm (absolute : Bool) (cs : List Component) : Prop :=
  ∃ stem ns, IsStem absolute stem ∧ (∀ n ∈ ns, IsNormal n) ∧ cs = stem ++ names ns

/-- Where nothing but climbing was done, a step up climbs once more. -/
theorem normalStep_replicate_up (n : Nat) :
    normalStep (List.replicate n .up) .up = List.replicate (n + 1) .up := by
  cases n <;> rfl

/-- One more piece leaves a normal form. -/
theorem IsNormalForm.step {absolute : Bool} {cs : List Component} {c : Component}
    (h : IsNormalForm absolute cs) (hc : IsPiece c) :
    IsNormalForm absolute (normalStep cs.reverse c).reverse := by
  obtain ⟨stem, ns, hstem, hns, rfl⟩ := h
  cases c with
  | root => exact hc.elim
  | here => exact hc.elim
  | name n =>
    refine ⟨stem, ns ++ [n], hstem, ?_, ?_⟩
    · intro m hm
      rcases List.mem_append.1 hm with hm | hm
      · exact hns m hm
      · exact List.mem_singleton.1 hm ▸ hc
    · rw [normalStep_name, List.reverse_cons, List.reverse_reverse, names_append, List.append_assoc]
      rfl
  | up =>
    rcases List.eq_nil_or_concat ns with rfl | ⟨above, last, rfl⟩
    · -- with no name to take back, a step up stays at the root and climbs from anywhere else
      rw [names_nil, List.append_nil]
      cases hstem with
      | root => exact ⟨[.root], [], .root, hns, rfl⟩
      | climb n =>
        refine ⟨List.replicate (n + 1) .up, [], .climb (n + 1), hns, ?_⟩
        rw [List.reverse_replicate, normalStep_replicate_up, List.reverse_replicate, names_nil,
          List.append_nil]
    · refine ⟨stem, above, hstem, fun m hm => hns m ?_, ?_⟩
      · rw [List.concat_eq_append]
        exact List.mem_append_left _ hm
      · rw [List.concat_eq_append, names_append, ← List.append_assoc, List.reverse_append]
        exact List.reverse_reverse _

/-- So does any run of pieces. -/
theorem IsNormalForm.foldl {absolute : Bool} {cs ps : List Component}
    (h : IsNormalForm absolute cs) (hps : ∀ c ∈ ps, IsPiece c) :
    IsNormalForm absolute (ps.foldl normalStep cs.reverse).reverse := by
  induction ps generalizing cs with
  | nil => rwa [List.foldl_nil, List.reverse_reverse]
  | cons c ps ih =>
    have hnext := ih (h.step (hps c List.mem_cons_self))
      fun d hd => hps d (List.mem_cons_of_mem _ hd)
    rwa [List.reverse_reverse] at hnext

/-- Normalising a path leaves a normal form. -/
theorem isNormalForm_normalize (p : Path) :
    IsNormalForm p.isAbsolute (normalize p.components) := by
  rw [normalize_components, kept_eq]
  have hpieces : ∀ c ∈ p.pieces, IsPiece c := fun c hc => isPiece_of_mem_pieces hc
  cases habsolute : p.isAbsolute with
  | true =>
    have hopening : p.opening.foldl normalStep [] = [Component.root].reverse := by
      rw [opening, habsolute, if_pos rfl]
      rfl
    rw [hopening]
    exact IsNormalForm.foldl ⟨[.root], [], .root, by simp, rfl⟩ hpieces
  | false =>
    rw [foldl_opening_of_relative habsolute]
    exact @IsNormalForm.foldl false [] _ ⟨[], [], .climb 0, by simp, rfl⟩ hpieces

/-! ## Relative paths that climb -/

/-- As many steps up, and names below. -/
def climbing (n : Nat) (ns : List Text) : List Component := List.replicate n .up ++ names ns

/-- How often a list of components climbs before it does anything else. -/
def climbs (cs : List Component) : Nat := (cs.takeWhile (· = .up)).length

@[simp] theorem climbs_climbing (n : Nat) (ns : List Text) : climbs (climbing n ns) = n := by
  have hups : ∀ c ∈ List.replicate n Component.up, decide (c = .up) = true := by
    intro c hc
    rw [List.eq_of_mem_replicate hc]
    rfl
  have hnames : (names ns).takeWhile (fun c => decide (c = .up)) = [] := by cases ns <;> rfl
  rw [climbs, climbing, List.takeWhile_append_of_pos hups, hnames, List.append_nil,
    List.length_replicate]

theorem length_climbing (n : Nat) (ns : List Text) : (climbing n ns).length = n + ns.length := by
  rw [climbing, List.length_append, List.length_replicate, names, List.length_map]

/-- A normalised relative path climbs and then has names. -/
theorem exists_climbing {p : Path} (h : p.isAbsolute = false) :
    ∃ n ns, (∀ m ∈ ns, IsNormal m) ∧ normalize p.components = climbing n ns := by
  obtain ⟨stem, ns, hstem, hns, hnormal⟩ := isNormalForm_normalize p
  rw [h] at hstem
  cases hstem with
  | climb n => exact ⟨n, ns, hns, hnormal⟩

/-- A normalised absolute path is the root and names. -/
theorem exists_rooted {p : Path} (h : p.isAbsolute = true) :
    ∃ ns, (∀ m ∈ ns, IsNormal m) ∧ normalize p.components = .root :: names ns := by
  obtain ⟨stem, ns, hstem, hns, hnormal⟩ := isNormalForm_normalize p
  rw [h] at hstem
  cases hstem with
  | root => exact ⟨ns, hns, hnormal⟩

/-- All components of a path that climbs are pieces. -/
theorem isPiece_of_mem_climbing {n : Nat} {ns : List Text} (h : ∀ m ∈ ns, IsNormal m) :
    ∀ c ∈ climbing n ns, IsPiece c := by
  intro c hc
  rcases List.mem_append.1 hc with hc | hc
  · rw [List.eq_of_mem_replicate hc]
    trivial
  · exact isPiece_of_mem_names h c hc

/-- No relative path starts at the root. -/
theorem startsAtRoot_climbing (n : Nat) (ns : List Text) :
    startsAtRoot (climbing n ns) = false := by
  cases n with
  | zero => cases ns <;> rfl
  | succ n => rfl

theorem reverse_climbing (n : Nat) (ns : List Text) :
    (climbing n ns).reverse = (names ns).reverse ++ List.replicate n .up := by
  rw [climbing, List.reverse_append, List.reverse_replicate]

/-- Part of the climb may be told apart from the rest. -/
theorem climbing_add (m k : Nat) (ns : List Text) :
    climbing (m + k) ns = List.replicate m .up ++ climbing k ns := by
  rw [climbing, climbing, ← List.append_assoc, List.replicate_append_replicate]

/-- Climbing on from where nothing but climbing was done. -/
theorem foldl_climbing (m k : Nat) (ns : List Text) :
    (climbing k ns).foldl normalStep (List.replicate m .up) = (climbing (m + k) ns).reverse := by
  induction k generalizing m with
  | zero =>
    rw [reverse_climbing]
    exact foldl_names ns _
  | succ k ih =>
    rw [Nat.add_comm k 1, climbing_add, List.foldl_append]
    show (climbing k ns).foldl normalStep (normalStep (List.replicate m .up) .up) = _
    rw [normalStep_replicate_up, ih, Nat.add_assoc]

/-! ## Descents -/

/-- From names to a path that climbs, the way first goes back up over the names. -/
theorem descent_names_climbing (k : Nat) (target base : List Text) :
    descent (climbing (k + 1) target) (names base)
      = some ((base.map fun _ => .up) ++ climbing (k + 1) target) := by
  cases base with
  | nil => rfl
  | cons b base =>
    have hclimbing : climbing (k + 1) target = .up :: climbing k target := rfl
    rw [hclimbing, names_cons, descent, if_neg (by simp), if_neg (by simp), map_up_names]
    rfl

/-- Walking the steps of a way from one normalised path leads to another. -/
structure Leads (base way target : List Component) : Prop where
  pieces : ∀ c ∈ way, IsPiece c
  walk : way.foldl normalStep base.reverse = target.reverse

/-- Where the base climbs no higher than the target there is a way to the target. -/
theorem exists_descent {m n : Nat} (hle : m ≤ n) (base : List Text) {target : List Text}
    (htarget : ∀ t ∈ target, IsNormal t) :
    ∃ way, descent (climbing n target) (climbing m base) = some way ∧
      Leads (climbing m base) way (climbing n target) := by
  obtain ⟨k, rfl⟩ := Nat.exists_eq_add_of_le hle
  -- the whole climb of the base is shared, and what the target climbs beyond it decides
  have hdescent : descent (climbing (m + k) target) (climbing m base)
      = descent (climbing k target) (names base) := by
    rw [climbing_add]
    exact descent_append _ _ _
  rw [hdescent]
  cases k with
  | zero =>
    refine ⟨way base target, descent_names target base, isPiece_of_mem_way htarget, ?_⟩
    rw [reverse_climbing, foldl_way, reverse_climbing]
    rfl
  | succ k =>
    refine ⟨_, descent_names_climbing k target base, fun c hc => ?_, ?_⟩
    · rcases List.mem_append.1 hc with hc | hc
      · obtain ⟨b, -, rfl⟩ := List.mem_map.1 hc
        trivial
      · exact isPiece_of_mem_climbing htarget c hc
    · rw [List.foldl_append, reverse_climbing, foldl_back, foldl_climbing]

/-- Where the base climbs higher, what both share is the climb of the target. -/
theorem descent_of_lt {m n : Nat} (hlt : n < m) (base target : List Text) :
    descent (climbing n target) (climbing m base)
      = descent (names target) (climbing (m - n) base) := by
  have hsplit : climbing m base = List.replicate n .up ++ climbing (m - n) base := by
    rw [← climbing_add, Nat.add_sub_cancel' (Nat.le_of_lt hlt)]
  rw [hsplit, climbing, descent_append]

/-- From a base that climbs higher there is no way to a name. -/
theorem descent_of_steeper {m n : Nat} (hlt : n < m) (base : List Text) (t : Text)
    (target : List Text) : descent (climbing n (t :: target)) (climbing m base) = none := by
  rw [descent_of_lt hlt]
  obtain ⟨k, hk⟩ := Nat.exists_eq_add_of_lt (Nat.sub_pos_of_lt hlt)
  rw [hk, Nat.zero_add]
  show descent (.name t :: names target) (.up :: climbing k base) = none
  rw [descent, if_neg (by simp), if_pos rfl]

/-- If the target does nothing but climb, it ends before the base shows that it climbs higher: what
the base has beyond the target is turned into steps up, its own steps up as well as its names. -/
theorem descent_of_exhausted {m n : Nat} (hlt : n < m) (base : List Text) :
    descent (climbing n []) (climbing m base)
      = some (List.replicate (m - n + base.length) .up) := by
  rw [descent_of_lt hlt]
  obtain ⟨k, hk⟩ := Nat.exists_eq_add_of_lt (Nat.sub_pos_of_lt hlt)
  rw [← length_climbing, ← List.map_const', hk, Nat.zero_add]
  rfl

/-! ## Ways between two paths -/

section

variable {target base : Path}

/-- Between relative paths of which the first climbs no higher than the second. -/
theorem leads_of_climbs_le (hbase : base.isAbsolute = false) (htarget : target.isAbsolute = false)
    (hle : climbs (normalize base.components) ≤ climbs (normalize target.components)) :
    Leads (normalize base.components) (relativeTo target base) (normalize target.components) := by
  obtain ⟨m, bs, -, hb⟩ := exists_climbing hbase
  obtain ⟨n, ts, hts, ht⟩ := exists_climbing htarget
  rw [hb, ht, climbs_climbing, climbs_climbing] at hle
  obtain ⟨way, hdescent, hleads⟩ := exists_descent hle bs hts
  have hway : relativeTo target base = way := by
    rw [relativeTo, hb, ht, difference, startsAtRoot_climbing, startsAtRoot_climbing, if_pos rfl,
      hdescent]
    rfl
  rwa [hway, hb, ht]

/-- Between absolute paths. -/
theorem leads_of_isAbsolute (hbase : base.isAbsolute = true) (htarget : target.isAbsolute = true) :
    Leads (normalize base.components) (relativeTo target base) (normalize target.components) := by
  obtain ⟨bs, -, hb⟩ := exists_rooted hbase
  obtain ⟨ts, hts, ht⟩ := exists_rooted htarget
  have hway : relativeTo target base = way bs ts := by
    rw [relativeTo, hb, ht]
    exact congrArg (Option.getD · _) (difference_names [.root] ts bs)
  rw [hway, hb, ht]
  refine ⟨isPiece_of_mem_way hts, ?_⟩
  rw [List.reverse_cons, List.reverse_cons, foldl_way]

/-- From a relative path that climbs higher there is no way to a path with a name, and that path
stands in for it. -/
theorem relativeTo_of_steeper
    (hbase : base.isAbsolute = false) (htarget : target.isAbsolute = false)
    (hlt : climbs (normalize target.components) < climbs (normalize base.components))
    (hname : ∃ n, .name n ∈ normalize target.components) :
    relativeTo target base = normalize target.components := by
  obtain ⟨m, bs, -, hb⟩ := exists_climbing hbase
  obtain ⟨n, ts, -, ht⟩ := exists_climbing htarget
  rw [hb, ht, climbs_climbing, climbs_climbing] at hlt
  obtain ⟨name, hname⟩ := hname
  cases ts with
  | nil =>
    rw [ht, climbing, names_nil, List.append_nil] at hname
    cases List.eq_of_mem_replicate hname
  | cons t ts =>
    rw [relativeTo, hb, ht, difference, startsAtRoot_climbing, startsAtRoot_climbing, if_pos rfl,
      descent_of_steeper hlt]
    rfl

/-- A path that does nothing but climb ends before it shows that the other one climbs higher. -/
theorem relativeTo_of_exhausted (hbase : base.isAbsolute = false)
    (htarget : target.isAbsolute = false)
    (hlt : climbs (normalize target.components) < climbs (normalize base.components))
    (hnone : ∀ n, .name n ∉ normalize target.components) :
    relativeTo target base = List.replicate
      ((normalize base.components).length - (normalize target.components).length) .up := by
  obtain ⟨m, bs, -, hb⟩ := exists_climbing hbase
  obtain ⟨n, ts, -, ht⟩ := exists_climbing htarget
  rw [hb, ht, climbs_climbing, climbs_climbing] at hlt
  cases ts with
  | nil =>
    have hlength : (climbing m bs).length - (climbing n []).length = m - n + bs.length := by
      rw [length_climbing, length_climbing, List.length_nil]
      omega
    rw [relativeTo, hb, ht, difference, startsAtRoot_climbing, startsAtRoot_climbing, if_pos rfl,
      descent_of_exhausted hlt, hlength]
    rfl
  | cons t ts =>
    rw [ht] at hnone
    exact absurd (List.mem_append_right _ List.mem_cons_self) (hnone t)

/-- From a relative path an absolute one is its own way. -/
theorem relativeTo_of_isAbsolute (hbase : base.isAbsolute = false)
    (htarget : target.isAbsolute = true) :
    relativeTo target base = normalize target.components := by
  obtain ⟨m, bs, -, hb⟩ := exists_climbing hbase
  obtain ⟨ts, -, ht⟩ := exists_rooted htarget
  rw [relativeTo, hb, ht, difference, startsAtRoot_climbing]
  rfl

end

end InterfacePackage.Path
