import InterfacePackage.Proofs.Path.Climbs
import InterfacePackage.Proofs.Path.Parent

/-!
# Paths in normal form

A path in normal form, written out, has the components that were kept, so that normalising it once
more changes nothing and a path seen from it normalises to what it does seen from the path itself.
Below the root there is nothing to climb out of: normalising and confining keep the same components
there. Main statements: `components_normal`, `kept_normal`, `confine_eq_normalize`, `walked_eq` (a
path built up and cut back as it is written is the confined one) and `normal_resolves`.
-/

namespace InterfacePackage.Path

/-- A path without `.`, and with `..` only where it climbs out of where it starts. -/
def normal (p : Path) : Path := render (normalize p.components)

/-! ## Normal forms written out -/

/-- A written way is not opened by anything. -/
theorem opening_render {cs : List Component} (h : ∀ c ∈ cs, IsPiece c) :
    opening (render cs) = [] := by
  rw [opening, isAbsolute_render h, if_neg Bool.false_ne_true, if_neg]
  rw [render_of_isPiece h]
  cases cs with
  | nil => decide
  | cons c cs =>
    have hslash : ∀ piece ∈ (c :: cs).map Component.text, '/' ∉ piece := by
      intro piece hpiece
      obtain ⟨d, hd, rfl⟩ := List.mem_map.1 hpiece
      exact (h d hd).text_spec.2
    rw [Text.split_join (by simp) hslash]
    intro hdot
    -- a single dot stands for no component
    have hc := (h c List.mem_cons_self).ofPiece?_text
    rw [Option.some.inj hdot] at hc
    cases hc

/-- A normal form that is written out has the same components. -/
theorem IsNormalForm.components_render {absolute : Bool} {cs : List Component}
    (h : IsNormalForm absolute cs) : components (render cs) = cs := by
  obtain ⟨stem, ns, hstem, hns, rfl⟩ := h
  cases hstem with
  | root =>
    have hwritten : render ([.root] ++ names ns) = '/' :: Text.join ['/'] ns := by
      show '/' :: Text.join ['/'] ((names ns).map Component.text) = _
      rw [map_text_names]
    have hslashed : pieces ('/' :: Text.join ['/'] ns) = pieces (Text.join ['/'] ns) :=
      pieces_slash [] _
    rw [hwritten, components_eq, hslashed, pieces_join_names hns]
    rfl
  | climb n =>
    have hpieces : ∀ c ∈ climbing n ns, IsPiece c := isPiece_of_mem_climbing hns
    show components (render (climbing n ns)) = climbing n ns
    rw [components_eq, opening_render hpieces, pieces_render hpieces, List.nil_append]

/-- It is normalised to itself. -/
theorem IsNormalForm.normalize_eq {absolute : Bool} {cs : List Component}
    (h : IsNormalForm absolute cs) : normalize cs = cs := by
  obtain ⟨stem, ns, hstem, hns, rfl⟩ := h
  cases hstem with
  | root =>
    show ((names ns).foldl normalStep [.root]).reverse = _
    rw [foldl_names, List.reverse_append, List.reverse_reverse]
    rfl
  | climb n =>
    have hclimb := foldl_climbing 0 n ns
    rw [Nat.zero_add] at hclimb
    exact (congrArg List.reverse hclimb).trans (List.reverse_reverse _)

/-! ## The normal path -/

/-- The components of a normal path are those that normalising keeps. -/
theorem components_normal (p : Path) : p.normal.components = normalize p.components :=
  (isNormalForm_normalize p).components_render

/-- Normalising a normal path keeps what normalising the path keeps. -/
theorem kept_normal (p : Path) : p.normal.kept = p.kept := by
  have hself : normalize p.normal.components = normalize p.components := by
    rw [components_normal, (isNormalForm_normalize p).normalize_eq]
  rw [normalize_components, normalize_components] at hself
  exact List.reverse_inj.1 hself

/-- Paths of which the same is kept have the same normal path. -/
theorem normal_congr {p q : Path} (h : p.kept = q.kept) : p.normal = q.normal := by
  rw [normal, normal, normalize_components, normalize_components, h]

theorem normal_normal (p : Path) : p.normal.normal = p.normal := normal_congr (kept_normal p)

/-- A path seen from another one may as well be seen from its normal path. -/
theorem normal_join (p q : Path) : (p.normal.join q).normal = (p.join q).normal := by
  cases hq : q.isAbsolute with
  | true => rw [join, join, if_pos hq, if_pos hq]
  | false =>
    apply normal_congr
    rw [kept_join hq, kept_join hq, kept_normal]

/-! ## Below the root -/

/-- As long as the root is kept, a step up is the same for normalising and for confining. -/
theorem IsNormalForm.confineStep_eq {cs : List Component} (h : IsNormalForm true cs)
    (c : Component) : confineStep cs.reverse c = normalStep cs.reverse c := by
  obtain ⟨stem, ns, hstem, -, rfl⟩ := h
  cases hstem with
  | root =>
    cases c with
    | root => rfl
    | here => rfl
    | name n => rfl
    | up =>
      rcases List.eq_nil_or_concat ns with rfl | ⟨above, last, rfl⟩
      · rfl
      · rw [List.concat_eq_append, names_append, ← List.append_assoc, List.reverse_append]
        rfl

/-- So is any run of pieces. -/
theorem IsNormalForm.foldl_confineStep {cs ps : List Component} (h : IsNormalForm true cs)
    (hps : ∀ c ∈ ps, IsPiece c) :
    ps.foldl confineStep cs.reverse = ps.foldl normalStep cs.reverse := by
  induction ps generalizing cs with
  | nil => rfl
  | cons c ps ih =>
    have hrest := ih (h.step (hps c List.mem_cons_self))
      fun d hd => hps d (List.mem_cons_of_mem _ hd)
    rw [List.reverse_reverse] at hrest
    rw [List.foldl_cons, List.foldl_cons, h.confineStep_eq, hrest]

/-- Of an absolute path normalising and confining keep the same. -/
theorem confine_eq_normalize {p : Path} (habs : p.isAbsolute = true) :
    confine p.components = normalize p.components := by
  have hroot : IsNormalForm true [.root] := ⟨[.root], [], .root, by simp, rfl⟩
  have hopening : p.opening = [.root] := by rw [opening, habs, if_pos rfl]
  rw [confine, normalize, components_eq, hopening]
  exact congrArg List.reverse (hroot.foldl_confineStep fun c hc => isPiece_of_mem_pieces hc)

/-! ## Paths built up and cut back -/

/-- A written path after one more component: `.` leaves it as it is, `..` cuts it back to the path
above if there is one, and any other component is joined to it. -/
def walkStep (out : Path) : Component → Path
  | .here => out
  | .up => out.parent.getD out
  | c => out.join c.text

/-- A path built up from the components of another one, and cut back where that climbs. -/
def walked (p : Path) : Path := p.components.foldl walkStep []

/-- What absolute paths start with, and relative ones do not. -/
def start (absolute : Bool) : List Component := if absolute then [.root] else []

/-- Names below the root, or below where a relative path starts, as a path. -/
def spell (absolute : Bool) (ns : List Text) : Path := render (start absolute ++ names ns)

/-- Such a path is a slash, if it is absolute, and the names with slashes between them. -/
theorem spell_eq (absolute : Bool) (ns : List Text) :
    spell absolute ns = (start absolute).flatMap Component.text ++ Text.join ['/'] ns := by
  cases absolute with
  | true =>
    show '/' :: Text.join ['/'] ((names ns).map Component.text) = _
    rw [map_text_names]
    rfl
  | false => exact render_names ns

/-- A path with one more name ends in that name. -/
theorem exists_spell_append (absolute : Bool) (ns : List Text) (n : Text) :
    ∃ front, spell absolute (ns ++ [n]) = front ++ n := by
  rw [spell_eq]
  by_cases hne : ns = []
  · exact ⟨_, by rw [hne]; rfl⟩
  · exact ⟨_, by rw [Text.join_append_singleton hne, ← List.append_assoc]⟩

section

variable {absolute : Bool} {ns : List Text} {n : Text}

/-- A path that ends in a normal name takes a slash before the next one. -/
theorem spell_append_not_open (hn : IsNormal n) : ¬ (spell absolute (ns ++ [n]) = [] ∨
    (spell absolute (ns ++ [n])).getLast? = some '/') := by
  obtain ⟨front, hfront⟩ := exists_spell_append absolute ns n
  obtain ⟨hempty, -, -, hslash⟩ := hn
  rw [hfront]
  rintro (hnil | hlast)
  · exact hempty (List.append_eq_nil_iff.1 hnil).2
  · rw [List.getLast?_append] at hlast
    cases hc : n.getLast? with
    | none => exact hempty (List.getLast?_eq_none_iff.1 hc)
    | some c =>
      rw [hc, Option.some_or] at hlast
      exact hslash (List.mem_of_getLast? (hc.trans hlast))

/-- Joining one more normal name. -/
theorem join_spell (hns : ∀ m ∈ ns, IsNormal m) (hn : IsNormal n) :
    (spell absolute ns).join n = spell absolute (ns ++ [n]) := by
  rw [join, isAbsolute_of_isNormal hn, if_neg Bool.false_ne_true]
  rcases List.eq_nil_or_concat ns with rfl | ⟨above, last, rfl⟩
  · cases absolute <;> rfl
  · rw [List.concat_eq_append] at hns ⊢
    have hlast : IsNormal last := List.forall_mem_singleton.1 (List.forall_mem_append.1 hns).2
    have hne : above ++ [last] ≠ [] := List.concat_ne_nil last above
    rw [if_neg (spell_append_not_open hlast), spell_eq, spell_eq, Text.join_append_singleton hne]
    simp

/-- No normal name is an idle piece. -/
theorem dropWhile_isIdle (hns : ∀ m ∈ ns, IsNormal m) : ns.dropWhile isIdle = ns := by
  cases ns with
  | nil => rfl
  | cons m ns =>
    obtain ⟨hempty, hdot, -, -⟩ := hns m List.mem_cons_self
    exact List.dropWhile_cons_of_neg (by simp [isIdle, hempty, hdot])

/-- Of normal names nothing is dropped from the end. -/
theorem dropWhile_isIdle_reverse (hns : ∀ m ∈ ns, IsNormal m) :
    ns.reverse.dropWhile isIdle = ns.reverse :=
  dropWhile_isIdle fun m hm => hns m (List.mem_reverse.1 hm)

/-- Normal names, the last one included, put together are these pieces again. -/
theorem split_join_append (hns : ∀ m ∈ ns, IsNormal m) (hn : IsNormal n) :
    Text.split '/' (Text.join ['/'] (ns ++ [n])) = ns ++ [n] := by
  refine Text.split_join (by simp) fun m hm => ?_
  rcases List.mem_append.1 hm with hm | hm
  · exact (hns m hm).2.2.2
  · exact List.mem_singleton.1 hm ▸ hn.2.2.2

/-- Above names below the root are all of them but the last, below the root. -/
theorem parent_slash_join (hns : ∀ m ∈ ns, IsNormal m) (hn : IsNormal n) :
    parent ('/' :: Text.join ['/'] (ns ++ [n])) = some ('/' :: Text.join ['/'] ns) := by
  have hall : ∀ m ∈ ns ++ [n], IsNormal m :=
    List.forall_mem_append.2 ⟨hns, List.forall_mem_singleton.2 hn⟩
  rw [parent, split_join_append hns hn, dropWhile_isIdle_reverse hall, List.reverse_append]
  show some ('/' :: Text.join ['/'] (ns.reverse.dropWhile isIdle).reverse) = _
  rw [dropWhile_isIdle_reverse hns, List.reverse_reverse]

/-- Above names are all of them but the last. -/
theorem parent_join (hns : ∀ m ∈ ns, IsNormal m) (hn : IsNormal n) :
    parent (Text.join ['/'] (ns ++ [n])) = some (Text.join ['/'] ns) := by
  have hall : ∀ m ∈ ns ++ [n], IsNormal m :=
    List.forall_mem_append.2 ⟨hns, List.forall_mem_singleton.2 hn⟩
  have hsplit := split_join_append hns hn
  have habs := isAbsolute_join_names hall
  rw [parent, hsplit]
  · -- the first piece is kept whatever it is, so it is told apart from the others
    cases ns with
    | nil => rfl
    | cons first ns =>
      have hrest : ∀ m ∈ ns, IsNormal m := fun m hm => hns m (List.mem_cons_of_mem _ hm)
      have hback : ∀ m ∈ ns ++ [n], IsNormal m := fun m hm => hall m (List.mem_cons_of_mem _ hm)
      rw [List.cons_append]
      dsimp only
      rw [dropWhile_isIdle_reverse hback, List.reverse_append]
      show some (Text.join ['/'] (first :: (ns.reverse.dropWhile isIdle).reverse)) = _
      rw [dropWhile_isIdle_reverse hrest, List.reverse_reverse]
  · -- such a path is neither empty nor absolute
    intro hnil
    rw [hnil] at hsplit
    rcases List.append_eq_singleton_iff.1 hsplit.symm with ⟨-, h⟩ | ⟨-, h⟩
    · exact hn.1 (List.singleton_inj.1 h)
    · cases h
  · intro body hbody
    rw [hbody] at habs
    cases habs

/-- The path above has all names but the last. -/
theorem parent_spell (hns : ∀ m ∈ ns, IsNormal m) (hn : IsNormal n) :
    (spell absolute (ns ++ [n])).parent = some (spell absolute ns) := by
  rw [spell_eq, spell_eq]
  cases absolute with
  | true => exact parent_slash_join hns hn
  | false => exact parent_join hns hn

end

/-- Built up from pieces, a path is spelled as confining keeps them. -/
theorem foldl_walkStep {absolute : Bool} {ns : List Text} {ps : List Component}
    (hns : ∀ m ∈ ns, IsNormal m) (hps : ∀ c ∈ ps, IsPiece c) :
    ps.foldl walkStep (spell absolute ns)
      = render (ps.foldl confineStep ((names ns).reverse ++ start absolute)).reverse := by
  induction ps generalizing ns with
  | nil =>
    have hstart : (start absolute).reverse = start absolute := by cases absolute <;> rfl
    rw [List.foldl_nil, List.foldl_nil, List.reverse_append, List.reverse_reverse, hstart]
    rfl
  | cons c ps ih =>
    have hrest : ∀ c ∈ ps, IsPiece c := fun d hd => hps d (List.mem_cons_of_mem _ hd)
    have hc := hps c List.mem_cons_self
    rw [List.foldl_cons, List.foldl_cons]
    cases c with
    | root => exact hc.elim
    | here => exact hc.elim
    | name n =>
      have hall : ∀ m ∈ ns ++ [n], IsNormal m :=
        List.forall_mem_append.2 ⟨hns, List.forall_mem_singleton.2 hc⟩
      have hnext := ih hall hrest
      rw [names_append, List.reverse_append, ← join_spell hns hc] at hnext
      exact hnext
    | up =>
      -- with no name to take back, neither the spelling nor what is kept changes
      rcases List.eq_nil_or_concat ns with rfl | ⟨above, last, rfl⟩
      · have hnext := ih hns hrest
        cases absolute <;> exact hnext
      · rw [List.concat_eq_append] at hns ⊢
        obtain ⟨habove, hnormal⟩ := List.forall_mem_append.1 hns
        have hlast : IsNormal last := List.forall_mem_singleton.1 hnormal
        have hparent : walkStep (spell absolute (above ++ [last])) .up = spell absolute above := by
          rw [walkStep, parent_spell habove hlast, Option.getD_some]
        rw [hparent, ih habove hrest, names_append, List.reverse_append]
        rfl

/-- What opens a path is where building it up starts. -/
theorem foldl_opening (p : Path) : p.opening.foldl walkStep [] = spell p.isAbsolute [] ∧
    p.opening.foldl confineStep [] = start p.isAbsolute := by
  unfold opening
  cases p.isAbsolute with
  | true => exact ⟨rfl, rfl⟩
  | false =>
    rw [if_neg Bool.false_ne_true]
    split <;> exact ⟨rfl, rfl⟩

/-- A path built up and cut back as it is written is the confined one. -/
theorem walked_eq (p : Path) : p.walked = render (confine p.components) := by
  obtain ⟨hopened, hkept⟩ := foldl_opening p
  have hwalk := @foldl_walkStep p.isAbsolute [] p.pieces (by simp) fun c hc =>
    isPiece_of_mem_pieces hc
  rw [walked, confine, components_eq, List.foldl_append, List.foldl_append, hopened, hkept, hwalk]
  rfl

/-! ## Both normal forms -/

/-- Normalising is idempotent. It leaves no `.`, and `..` only as the climb that a relative path
starts with: below the root, or below that climb, there are normal names only. Whatever is seen from
a path has the normal form that it has seen from the normal path. The normal form of an absolute
path is what confining it leaves, and what building it up component by component leaves, each `..`
cutting back what is there. -/
theorem normal_resolves (p : Path) :
    p.normal.normal = p.normal ∧
      (∃ climb ns, (∀ n ∈ ns, IsNormal n) ∧ p.normal.components
        = (if p.isAbsolute then [.root] else List.replicate climb .up) ++ names ns) ∧
      (∀ q, (p.join q).normal = (p.normal.join q).normal) ∧
      (p.isAbsolute = true → render (confine p.components) = p.normal ∧ p.walked = p.normal) := by
  refine ⟨normal_normal p, ?_, fun q => (normal_join p q).symm, ?_⟩
  · rw [components_normal]
    cases habs : p.isAbsolute with
    | true =>
      obtain ⟨ns, hns, hrooted⟩ := exists_rooted habs
      exact ⟨0, ns, hns, hrooted⟩
    | false =>
      obtain ⟨climb, ns, hns, hclimbing⟩ := exists_climbing habs
      exact ⟨climb, ns, hns, hclimbing⟩
  · intro habs
    rw [walked_eq, confine_eq_normalize habs]
    exact ⟨rfl, rfl⟩

/-- An absolute path that climbs above the root. -/
def steepPath : Path := "/a/./../../b//c/.."

/-- It comes to the same file both ways, and so does what is seen from it. -/
theorem normal_resolves_steepPath :
    steepPath.isAbsolute = true ∧ steepPath.walked = "/b" ∧
      render (confine steepPath.components) = "/b" ∧
      (steepPath.join "../d").normal = "/d" := by
  obtain ⟨-, -, hjoin, habsolute⟩ := normal_resolves steepPath
  have habs : steepPath.isAbsolute = true := rfl
  have hnormal : steepPath.normal = "/b" := by decide
  have hseen : join "/b" "../d" = "/b/../d" := by decide
  refine ⟨habs, (habsolute habs).2.trans hnormal, (habsolute habs).1.trans hnormal, ?_⟩
  rw [hjoin, hnormal, hseen]
  decide

end InterfacePackage.Path
