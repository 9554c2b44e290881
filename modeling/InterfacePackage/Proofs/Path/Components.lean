import InterfacePackage.Path.Normal
import InterfacePackage.Proofs.Text.Pieces

/-!
# Components of composed paths

The components of a path are what opens it and the components of its pieces, and the pieces of a
path that continues another are those of both. Main statements: `pieces_slash`, `pieces_join` and
`kept_join` (what normalising keeps of a joined path).
-/

namespace InterfacePackage

/-- A name that stands for itself between two slashes. -/
def IsNormal (n : Text) : Prop := n ≠ [] ∧ n ≠ ['.'] ∧ n ≠ ['.', '.'] ∧ '/' ∉ n

instance (n : Text) : Decidable (IsNormal n) := inferInstanceAs (Decidable (_ ∧ _))

/-- The piece that a normal name makes up is its component. -/
theorem IsNormal.ofPiece? {n : Text} (h : IsNormal n) : Component.ofPiece? n = some (.name n) := by
  obtain ⟨hne, hdot, hdots, -⟩ := h
  unfold Component.ofPiece?
  split <;> first | contradiction | rfl

namespace Path

/-! ## What opens a path, and its pieces -/

/-- Names as components. -/
def names (ns : List Text) : List Component := ns.map .name

@[simp] theorem names_nil : names [] = [] := rfl

@[simp] theorem names_cons (n : Text) (ns : List Text) : names (n :: ns) = .name n :: names ns :=
  rfl

@[simp] theorem names_append (ns ms : List Text) : names (ns ++ ms) = names ns ++ names ms :=
  List.map_append

/-- The component that opens a path without belonging to one of its pieces. -/
def opening (p : Path) : List Component :=
  if p.isAbsolute then [.root]
  else if (Text.split '/' p).head? = some ['.'] then [.here]
  else []

/-- The components that the pieces of a path stand for. -/
def pieces (p : Path) : List Component := (Text.split '/' p).filterMap Component.ofPiece?

/-- A path has the component that opens it and those of its pieces. -/
theorem components_eq (p : Path) : p.components = p.opening ++ p.pieces := by
  unfold components opening pieces
  split
  · rfl
  · cases hs : Text.split '/' p with
    | nil => exact absurd hs (Text.split_ne_nil '/' p)
    | cons first rest =>
      by_cases hfirst : first = ['.']
      · subst hfirst
        simp [Component.ofPiece?]
      · have hhead : (first :: rest).head? ≠ some ['.'] := by simpa using hfirst
        rw [if_neg hhead]
        dsimp only
        split
        · rename_i heq
          exact absurd (List.cons.inj heq).1 hfirst
        · rfl

/-- A piece is the text of the component that it stands for. -/
theorem text_of_ofPiece? {piece : Text} {x : Component} (h : Component.ofPiece? piece = some x) :
    x.text = piece := by
  unfold Component.ofPiece? at h
  split at h <;> cases h <;> rfl

/-- The text of a component is taken from the path. -/
theorem mem_of_mem_components {p : Path} {x : Component} {c : Char} (hx : x ∈ p.components)
    (hc : c ∈ x.text) : c ∈ p := by
  rw [components_eq, List.mem_append] at hx
  rcases hx with hx | hx
  · unfold opening at hx
    split at hx
    · rename_i habsolute
      rw [List.mem_singleton.1 hx] at hc
      unfold isAbsolute at habsolute
      split at habsolute
      · exact List.mem_singleton.1 hc ▸ List.mem_cons_self
      · cases habsolute
    split at hx
    · rename_i hhead
      rw [List.mem_singleton.1 hx] at hc
      exact Text.mem_of_mem_split (List.mem_of_mem_head? hhead) hc
    · cases hx
  · obtain ⟨piece, hpiece, hofPiece⟩ := List.mem_filterMap.1 hx
    exact Text.mem_of_mem_split hpiece (text_of_ofPiece? hofPiece ▸ hc)

@[simp] theorem pieces_nil : pieces [] = [] := rfl

/-- The pieces of a path that goes on behind a slash. -/
@[simp] theorem pieces_slash (a b : Path) : pieces (a ++ '/' :: b) = pieces a ++ pieces b := by
  rw [pieces, Text.split_append, List.filterMap_append]
  rfl

/-- A slash at the end adds nothing. -/
theorem pieces_trailing (a : Path) : pieces (a ++ ['/']) = pieces a := by
  rw [pieces_slash, pieces_nil, List.append_nil]

/-- Nor do several of them. -/
theorem pieces_append_slashes (a : Path) (k : Nat) :
    pieces (a ++ List.replicate k '/') = pieces a := by
  induction k with
  | zero => rw [List.replicate_zero, List.append_nil]
  | succ k ih => rw [List.replicate_succ', ← List.append_assoc, pieces_trailing, ih]

/-- A path is absolute if its first character is a slash. -/
theorem isAbsolute_cons (c : Char) (p : Path) : isAbsolute (c :: p) = decide (c = '/') := by
  by_cases hc : c = '/'
  · subst hc
    rfl
  · rw [isAbsolute, decide_eq_false hc]
    intro rest h
    exact hc (List.cons.inj h).1

/-- What follows the first character has no part in whether a path is absolute. -/
theorem isAbsolute_append {a : Path} (h : a ≠ []) (b : Path) :
    isAbsolute (a ++ b) = isAbsolute a := by
  cases a with
  | nil => exact absurd rfl h
  | cons c a => rw [List.cons_append, isAbsolute_cons, isAbsolute_cons]

/-- A relative path that goes on behind a joint has the pieces of both. -/
theorem pieces_join {a b : Path} (hb : b.isAbsolute = false) :
    pieces (a.join b) = pieces a ++ pieces b := by
  rw [join, hb, if_neg Bool.false_ne_true]
  split
  · rename_i h
    rcases h with rfl | hlast
    · rfl
    · obtain ⟨a', rfl⟩ := List.getLast?_eq_some_iff.1 hlast
      rw [List.append_assoc, List.singleton_append, pieces_slash, pieces_trailing]
  · exact pieces_slash a b

/-- What opens a path that is continued. -/
theorem opening_append {a : Path} (h : a ≠ []) (b : Path) :
    opening (a ++ '/' :: b) = opening a := by
  rw [opening, opening, isAbsolute_append h, Text.split_append]
  cases hs : Text.split '/' a with
  | nil => exact absurd hs (Text.split_ne_nil '/' a)
  | cons first rest => rfl

/-- Joining a relative path keeps what opens the first one. -/
theorem opening_join {a b : Path} (ha : a ≠ []) (hb : b.isAbsolute = false) :
    opening (a.join b) = opening a := by
  rw [join, hb, if_neg Bool.false_ne_true]
  split
  · rename_i h
    rcases h with rfl | hlast
    · exact absurd rfl ha
    · obtain ⟨a', rfl⟩ := List.getLast?_eq_some_iff.1 hlast
      rw [List.append_assoc, List.singleton_append]
      cases a' with
      | nil => rfl
      | cons c a' => rw [opening_append (by simp), opening_append (by simp)]
  · exact opening_append ha b

/-! ## Components as pieces -/

/-- A component that a piece of a path may stand for. -/
def IsPiece : Component → Prop
  | .up => True
  | .name n => IsNormal n
  | _ => False

/-- A component that a piece stands for is that of its own text. -/
theorem IsPiece.ofPiece?_text {c : Component} (h : IsPiece c) :
    Component.ofPiece? c.text = some c := by
  cases c with
  | root => exact h.elim
  | here => exact h.elim
  | up => rfl
  | name n => exact IsNormal.ofPiece? h

/-- The text of a component that a piece stands for is not empty and holds no slash. -/
theorem IsPiece.text_spec {c : Component} (h : IsPiece c) : c.text ≠ [] ∧ '/' ∉ c.text := by
  cases c with
  | root => exact h.elim
  | here => exact h.elim
  | up => decide
  | name n => exact ⟨h.1, h.2.2.2⟩

/-- The pieces of a path are steps up and normal names. -/
theorem isPiece_of_mem_pieces {p : Path} {c : Component} (h : c ∈ p.pieces) : IsPiece c := by
  obtain ⟨piece, hpiece, hc⟩ := List.mem_filterMap.1 h
  unfold Component.ofPiece? at hc
  split at hc
  · cases hc
  · cases hc
  · cases hc
    trivial
  · rename_i hempty hdot hdots
    cases hc
    exact ⟨hempty, hdot, hdots, Text.notMem_of_mem_split hpiece⟩

/-- Normal names are components that pieces stand for. -/
theorem isPiece_of_mem_names {ns : List Text} (h : ∀ n ∈ ns, IsNormal n) :
    ∀ c ∈ names ns, IsPiece c := by
  intro c hc
  obtain ⟨n, hn, rfl⟩ := List.mem_map.1 hc
  exact h n hn

/-- The texts of components that pieces stand for give these components back. -/
theorem filterMap_text {cs : List Component} (h : ∀ c ∈ cs, IsPiece c) :
    (cs.map Component.text).filterMap Component.ofPiece? = cs := by
  induction cs with
  | nil => rfl
  | cons c cs ih =>
    rw [List.map_cons, List.filterMap_cons_some (h c List.mem_cons_self).ofPiece?_text,
      ih fun d hd => h d (List.mem_cons_of_mem _ hd)]

/-- The pieces of components put together are these components. -/
theorem pieces_join_text {cs : List Component} (h : ∀ c ∈ cs, IsPiece c) :
    pieces (Text.join ['/'] (cs.map Component.text)) = cs := by
  cases cs with
  | nil => rfl
  | cons c cs =>
    have hslash : ∀ piece ∈ (c :: cs).map Component.text, '/' ∉ piece := by
      intro piece hpiece
      obtain ⟨d, hd, rfl⟩ := List.mem_map.1 hpiece
      exact (h d hd).text_spec.2
    rw [pieces, Text.split_join (by simp) hslash, filterMap_text h]

/-- Components put together make a relative path. -/
theorem isAbsolute_join_text {cs : List Component} (h : ∀ c ∈ cs, IsPiece c) :
    isAbsolute (Text.join ['/'] (cs.map Component.text)) = false := by
  cases cs with
  | nil => rfl
  | cons c cs =>
    obtain ⟨hne, hslash⟩ := (h c List.mem_cons_self).text_spec
    have hfirst : isAbsolute c.text = false := by
      cases ht : c.text with
      | nil => rfl
      | cons x t =>
        rw [isAbsolute_cons]
        exact decide_eq_false fun hx => hslash (ht ▸ hx ▸ List.mem_cons_self)
    cases cs with
    | nil => exact hfirst
    | cons d cs =>
      rw [List.map_cons, Text.join_cons (by simp), List.append_assoc, isAbsolute_append hne, hfirst]

theorem map_text_names (ns : List Text) : (names ns).map Component.text = ns := by
  rw [names, List.map_map]
  exact List.map_id ns

/-- The pieces of normal names put together are these names. -/
theorem pieces_join_names {ns : List Text} (h : ∀ n ∈ ns, IsNormal n) :
    pieces (Text.join ['/'] ns) = names ns := by
  have hpieces := pieces_join_text (isPiece_of_mem_names h)
  rwa [map_text_names] at hpieces

/-- Normal names put together make a relative path. -/
theorem isAbsolute_join_names {ns : List Text} (h : ∀ n ∈ ns, IsNormal n) :
    isAbsolute (Text.join ['/'] ns) = false := by
  have habsolute := isAbsolute_join_text (isPiece_of_mem_names h)
  rwa [map_text_names] at habsolute

/-! ## Joined paths -/

theorem ne_nil_of_isAbsolute {p : Path} (h : p.isAbsolute = true) : p ≠ [] := by
  rintro rfl
  cases h

/-- A relative path does not change whether the path before it is absolute. -/
theorem isAbsolute_join {a b : Path} (ha : a ≠ []) (hb : b.isAbsolute = false) :
    (a.join b).isAbsolute = a.isAbsolute := by
  rw [join, hb, if_neg Bool.false_ne_true]
  split <;> exact isAbsolute_append ha _

/-- A joined path is absolute if one of its parts is. -/
theorem isAbsolute_join_eq (a b : Path) :
    (a.join b).isAbsolute = (a.isAbsolute || b.isAbsolute) := by
  cases hb : b.isAbsolute with
  | true => rw [join, if_pos hb, hb, Bool.or_true]
  | false =>
    by_cases ha : a = []
    · subst ha
      have hjoin : join [] b = b := by simp [join]
      rw [hjoin, hb]
      rfl
    · rw [isAbsolute_join ha hb, Bool.or_false]

theorem isAbsolute_join_of_isAbsolute {a : Path} (ha : a.isAbsolute = true) (b : Path) :
    (a.join b).isAbsolute = true := by
  rw [isAbsolute_join_eq, ha, Bool.true_or]

/-- A path seen from one that is not empty is not empty. -/
theorem join_ne_nil {a : Path} (ha : a ≠ []) (b : Path) : a.join b ≠ [] := by
  rw [join]
  split
  · rename_i hb
    rintro rfl
    cases hb
  · split <;> simp [ha]

theorem isAbsolute_of_isNormal {n : Text} (h : IsNormal n) :
    isAbsolute n = false :=
  @isAbsolute_join_names [n] (by simpa using h)

/-- Going on by any normal name adds the name to the same text. -/
theorem exists_join_name (a : Path) :
    ∃ front : Text, ∀ n : Text, IsNormal n → a.join n = front ++ n := by
  by_cases ha : a = [] ∨ a.getLast? = some '/'
  · refine ⟨a, fun n hn => ?_⟩
    rw [join, isAbsolute_of_isNormal hn, if_neg Bool.false_ne_true, if_pos ha]
  · refine ⟨a ++ ['/'], fun n hn => ?_⟩
    rw [join, isAbsolute_of_isNormal hn, if_neg Bool.false_ne_true, if_neg ha, List.append_assoc,
      List.singleton_append]

/-- A path that ends in a normal name has it as its last piece. -/
theorem split_join_name (a : Path) {n : Text} (h : IsNormal n) :
    ∃ front, Text.split '/' (a.join n) = front ++ [n] := by
  have hn : Text.split '/' n = [n] := Text.split_of_notMem h.2.2.2
  rw [join, isAbsolute_of_isNormal h, if_neg Bool.false_ne_true]
  split
  · rename_i ha
    rcases ha with rfl | hlast
    · exact ⟨[], hn⟩
    · obtain ⟨a', rfl⟩ := List.getLast?_eq_some_iff.1 hlast
      refine ⟨Text.split '/' a', ?_⟩
      rw [List.append_assoc, List.singleton_append, Text.split_append, hn]
  · exact ⟨Text.split '/' a, by rw [Text.split_append, hn]⟩

/-- Normal names put together are not opened by anything. -/
theorem opening_join_names {ns : List Text} (h : ∀ n ∈ ns, IsNormal n) :
    opening (Text.join ['/'] ns) = [] := by
  rw [opening, isAbsolute_join_names h, if_neg Bool.false_ne_true, if_neg]
  cases ns with
  | nil => decide
  | cons n ns =>
    rw [Text.split_join (by simp) fun piece hpiece => (h piece hpiece).2.2.2]
    simpa using (h n List.mem_cons_self).2.1

/-- The components of a path that goes on by normal names. -/
theorem components_join_names (a : Path) {ns : List Text} (h : ∀ n ∈ ns, IsNormal n) :
    (a.join (Text.join ['/'] ns)).components = a.components ++ names ns := by
  have hb := isAbsolute_join_names h
  by_cases ha : a = []
  · subst ha
    have hjoin : join [] (Text.join ['/'] ns) = Text.join ['/'] ns := by simp [join]
    rw [hjoin, components_eq, opening_join_names h, pieces_join_names h]
    rfl
  · rw [components_eq, components_eq, opening_join ha hb, pieces_join hb, pieces_join_names h,
      List.append_assoc]

/-- Names are written with slashes between them. -/
theorem render_names (ns : List Text) : render (names ns) = Text.join ['/'] ns := by
  have hrender : render (names ns) = Text.join ['/'] ((names ns).map Component.text) := by
    cases ns <;> rfl
  rw [hrender, map_text_names]

/-- What remains of a path below its start are the names that it goes on by. -/
theorem stripPrefix_join_names (a : Path) {ns : List Text} (h : ∀ n ∈ ns, IsNormal n) :
    (a.join (Text.join ['/'] ns)).stripPrefix a = some (Text.join ['/'] ns) := by
  have hstarts : (a.join (Text.join ['/'] ns)).startsWith a = true := by
    rw [startsWith, components_join_names a h, List.isPrefixOf_iff_prefix]
    exact List.prefix_append _ _
  rw [stripPrefix, if_pos hstarts, components_join_names a h, List.drop_left, render_names]

/-! ## What normalising keeps -/

@[simp] theorem normalStep_name (kept : List Component) (n : Text) :
    normalStep kept (.name n) = .name n :: kept := rfl

/-- What normalising a path keeps, the last component first. -/
def kept (p : Path) : List Component := p.components.foldl normalStep []

/-- A normalised path is what is kept of it, in its own order. -/
theorem normalize_components (p : Path) : normalize p.components = p.kept.reverse := rfl

/-- What opens a relative path is not kept. -/
theorem foldl_opening_of_relative {p : Path} (h : p.isAbsolute = false) :
    p.opening.foldl normalStep [] = [] := by
  rw [opening, h, if_neg Bool.false_ne_true]
  split <;> rfl

/-- What is kept of a path comes from its opening and its pieces. -/
theorem kept_eq (p : Path) :
    p.kept = p.pieces.foldl normalStep (p.opening.foldl normalStep []) := by
  rw [kept, components_eq, List.foldl_append]

/-- Of a joined path is kept what its second part leaves of the first. -/
theorem kept_join {a b : Path} (hb : b.isAbsolute = false) :
    (a.join b).kept = b.pieces.foldl normalStep a.kept := by
  by_cases ha : a = []
  · subst ha
    have hjoin : join [] b = b := by simp [join]
    rw [hjoin, kept_eq, foldl_opening_of_relative hb]
    rfl
  · rw [kept_eq, kept_eq, opening_join ha hb, pieces_join hb, List.foldl_append]

/-- Of a path that goes on behind a slash is kept what its end leaves of the start. -/
theorem kept_slash {a : Path} (ha : a ≠ []) (b : Path) :
    kept (a ++ '/' :: b) = (pieces b).foldl normalStep (kept a) := by
  rw [kept_eq, kept_eq, opening_append ha, pieces_slash, List.foldl_append]

/-- Names are kept as they come. -/
theorem foldl_names (ns : List Text) (kept : List Component) :
    (names ns).foldl normalStep kept = (names ns).reverse ++ kept := by
  induction ns generalizing kept with
  | nil => rfl
  | cons n ns ih =>
    rw [names_cons, List.foldl_cons, normalStep_name, ih, List.reverse_cons, List.append_assoc]
    rfl

/-- As many steps up as there are names on top take these names away. -/
theorem foldl_ups (ns : List Text) (kept : List Component) :
    (ns.map fun _ => Component.up).foldl normalStep (names ns ++ kept) = kept := by
  induction ns with
  | nil => rfl
  | cons n ns ih => exact ih

end Path

end InterfacePackage
