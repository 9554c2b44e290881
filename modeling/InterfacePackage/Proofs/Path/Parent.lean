import InterfacePackage.Proofs.Path.Components

/-!
# Parents and ancestors

The path above an absolute one is absolute and has all its pieces but the last, and a path starts
with the path above it, so the ancestors of a path are itself and those of its parent. Main
statements: `exists_append_of_parent`, `parent_spec`, `ancestors_of_parent`, `parent_induction`
(from the top down to any absolute path) and `of_mem_ancestors` (from a path up to all its
ancestors).
-/

namespace InterfacePackage.Path

/-! ## Idle pieces -/

/-- A piece has no part in the meaning of a path exactly if it stands for no component. -/
theorem isIdle_iff {piece : Text} : isIdle piece = true ↔ Component.ofPiece? piece = none := by
  unfold isIdle
  rw [decide_eq_true_eq]
  constructor
  · rintro (rfl | rfl) <;> rfl
  · intro h
    unfold Component.ofPiece? at h
    split at h
    · exact .inl rfl
    · exact .inr rfl
    · cases h
    · cases h

/-- Idle pieces stand for nothing. -/
theorem filterMap_idle {ps : List Text} (h : ∀ piece ∈ ps, isIdle piece = true) :
    ps.filterMap Component.ofPiece? = [] :=
  List.filterMap_eq_nil_iff.2 fun piece hpiece => isIdle_iff.1 (h piece hpiece)

/-- Where the last piece that is not idle stands, and where the last one before it does. -/
theorem eq_of_dropWhile_idle {ps above : List Text} {last : Text}
    (h : ps.reverse.dropWhile isIdle = last :: above) :
    ∃ between behind, ps = (above.dropWhile isIdle).reverse ++ between ++ last :: behind ∧
      (∀ piece ∈ between, isIdle piece = true) ∧ (∀ piece ∈ behind, isIdle piece = true) ∧
      isIdle last = false := by
  obtain ⟨behind, hps, hbehind⟩ := Text.eq_of_dropWhile_reverse h
  refine ⟨(above.takeWhile isIdle).reverse, behind, ?_, ?_, hbehind, ?_⟩
  · rw [hps, List.reverse_cons, ← List.reverse_append, List.takeWhile_append_dropWhile,
      List.append_assoc, List.singleton_append]
  · intro piece hpiece
    rw [List.mem_reverse] at hpiece
    exact List.all_eq_true.1 List.all_takeWhile piece hpiece
  · have hhead := List.head?_dropWhile_not isIdle ps.reverse
    rw [h] at hhead
    simpa using hhead

/-- Pieces without a slash, put together, are the pieces of that path. -/
theorem pieces_join_of_noSlash {ps : List Text} (h : ∀ piece ∈ ps, '/' ∉ piece) :
    pieces (Text.join ['/'] ps) = ps.filterMap Component.ofPiece? := by
  by_cases hps : ps = []
  · subst hps
    rfl
  · rw [pieces, Text.split_join hps h]

/-! ## The path above -/

/-- A text starts with fewer of its pieces put together. -/
theorem exists_append_of_split {t : Text} {front back : List Text}
    (hsplit : Text.split '/' t = front ++ back) (hfront : front ≠ []) (hback : back ≠ []) :
    ∃ rest, rest ≠ [] ∧ t = Text.join ['/'] front ++ rest := by
  refine ⟨'/' :: Text.join ['/'] back, List.cons_ne_nil _ _, ?_⟩
  rw [← Text.join_split '/' t, hsplit, Text.join_append hfront hback, List.append_assoc]
  rfl

/-- A path starts with the path above it, and goes on. -/
theorem exists_append_of_parent {p above : Path} (h : p.parent = some above) :
    ∃ rest, rest ≠ [] ∧ p = above ++ rest := by
  unfold parent at h
  split at h
  · cases h
  · rename_i body
    split at h
    · cases h
    · rename_i last front hdrop
      cases h
      obtain ⟨between, behind, hsplit, -, -, -⟩ := eq_of_dropWhile_idle hdrop
      rw [List.append_assoc] at hsplit
      -- above an entry of the root nothing is left but the slash in front
      by_cases hfront : (front.dropWhile isIdle).reverse = []
      · rw [hfront]
        refine ⟨body, ?_, rfl⟩
        rintro rfl
        cases hdrop
      · obtain ⟨rest, hrest, hbody⟩ := exists_append_of_split hsplit hfront (by simp)
        exact ⟨rest, hrest, congrArg _ hbody⟩
  · rename_i hne hslash
    -- a relative path keeps its first piece, whatever this is
    cases hps : Text.split '/' p with
    | nil => exact absurd hps (Text.split_ne_nil '/' p)
    | cons first rest =>
      rw [hps] at h
      dsimp only at h
      split at h
      · cases h
        exact ⟨p, hne, rfl⟩
      · rename_i last front hdrop
        cases h
        obtain ⟨between, behind, hrest, -, -, -⟩ := eq_of_dropWhile_idle hdrop
        rw [List.append_assoc] at hrest
        rw [hrest, ← List.cons_append] at hps
        exact exists_append_of_split hps (by simp) (by simp)

/-- The path above is shorter. -/
theorem length_lt_of_parent {p above : Path} (h : p.parent = some above) :
    above.length < p.length := by
  obtain ⟨rest, hrest, rfl⟩ := exists_append_of_parent h
  have hpositive := List.length_pos_iff.2 hrest
  rw [List.length_append]
  omega

/-- The path above an absolute one is absolute and has all its pieces but the last. -/
theorem parent_spec {p above : Path} (habs : p.isAbsolute = true) (h : p.parent = some above) :
    above.isAbsolute = true ∧ ∃ c, p.pieces = above.pieces ++ [c] := by
  unfold parent at h
  split at h
  · cases h
  · rename_i body
    split at h
    · cases h
    · rename_i last front hdrop
      cases h
      obtain ⟨between, behind, hsplit, hbetween, hbehind, hlast⟩ := eq_of_dropWhile_idle hdrop
      refine ⟨rfl, ?_⟩
      -- the piece that is dropped is not idle, so it is the last component
      obtain ⟨c, hc⟩ : ∃ c, Component.ofPiece? last = some c := by
        cases hc : Component.ofPiece? last with
        | none =>
          rw [isIdle_iff.2 hc] at hlast
          cases hlast
        | some c => exact ⟨c, rfl⟩
      have hslash : ∀ piece ∈ (front.dropWhile isIdle).reverse, '/' ∉ piece := fun piece hpiece =>
        Text.notMem_of_mem_split (t := body) (by simp [hsplit, hpiece])
      have hbody : pieces body
          = (front.dropWhile isIdle).reverse.filterMap Component.ofPiece? ++ [c] := by
        rw [pieces, hsplit, List.filterMap_append, List.filterMap_append, filterMap_idle hbetween,
          List.filterMap_cons_some hc, filterMap_idle hbehind, List.append_nil]
      refine ⟨c, ?_⟩
      have hslashed : ∀ b : Path, pieces ('/' :: b) = pieces b := pieces_slash []
      rw [hslashed, hslashed, hbody, pieces_join_of_noSlash hslash]
  · rename_i hne hslash
    cases p with
    | nil => exact absurd rfl hne
    | cons x p =>
      rw [isAbsolute_cons, decide_eq_true_eq] at habs
      exact absurd (by rw [habs]) (hslash p)

/-- An absolute path with nothing above it has no pieces. -/
theorem pieces_of_parent_eq_none {p : Path} (habs : p.isAbsolute = true) (h : p.parent = none) :
    p.pieces = [] := by
  unfold parent at h
  split at h
  · cases habs
  · rename_i body
    split at h
    · rename_i hdrop
      have hslashed : pieces ('/' :: body) = pieces body := pieces_slash [] body
      have hall := @List.takeWhile_append_dropWhile _ isIdle (Text.split '/' body).reverse
      rw [hdrop, List.append_nil] at hall
      have hidle : ∀ piece ∈ Text.split '/' body, isIdle piece = true := by
        intro piece hpiece
        rw [← List.mem_reverse, ← hall] at hpiece
        exact List.all_eq_true.1 List.all_takeWhile piece hpiece
      rw [hslashed, pieces, filterMap_idle hidle]
    · cases h
  · rename_i hne hslash
    cases p with
    | nil => exact absurd rfl hne
    | cons x p =>
      rw [isAbsolute_cons, decide_eq_true_eq] at habs
      exact absurd (by rw [habs]) (hslash p)

/-! ## Ancestors -/

/-- More levels than a path can have make no difference. -/
theorem ancestors_go_of_le {n : Nat} {p : Path} (h : p.length ≤ n) :
    ancestors.go n p = ancestors p := by
  -- on the levels, which the path above needs fewer of
  induction n using Nat.strongRecOn generalizing p with
  | ind n ih =>
    rw [ancestors]
    cases hlength : p.length with
    | zero =>
      have hp := List.length_eq_zero_iff.1 hlength
      subst hp
      cases n <;> rfl
    | succ k =>
      cases n with
      | zero => omega
      | succ n =>
        rw [ancestors.go, ancestors.go]
        cases hparent : p.parent with
        | none => rfl
        | some above =>
          have hshorter := length_lt_of_parent hparent
          dsimp only
          rw [ih n (by omega) (by omega), ih k (by omega) (by omega)]

/-- The ancestors of a path are the path and those of the path above it. -/
theorem ancestors_of_parent {p above : Path} (h : p.parent = some above) :
    p.ancestors = p :: above.ancestors := by
  have hshorter := length_lt_of_parent h
  rw [ancestors]
  cases hlength : p.length with
  | zero => omega
  | succ n =>
    rw [ancestors.go, h]
    dsimp only
    rw [ancestors_go_of_le (by omega)]

/-- A path with nothing above it is its own only ancestor. -/
theorem ancestors_of_parent_eq_none {p : Path} (h : p.parent = none) : p.ancestors = [p] := by
  rw [ancestors]
  cases p.length with
  | zero => rfl
  | succ n => rw [ancestors.go, h]

/-- Every path is an ancestor of itself. -/
theorem self_mem_ancestors (p : Path) : p ∈ p.ancestors := by
  rw [ancestors]
  cases p.length <;> exact List.mem_cons_self

/-- What holds of every absolute path with nothing above it, and of every other one if it holds of
the path above, holds of all absolute paths. -/
theorem parent_induction {P : Path → Prop}
    (top : ∀ p : Path, p.isAbsolute = true → p.parent = none → P p)
    (below : ∀ p above : Path, p.isAbsolute = true → p.parent = some above → P above → P p)
    {p : Path} (habs : p.isAbsolute = true) : P p := by
  generalize hlength : p.length = n
  -- on the length of the path, since the path above is shorter
  induction n using Nat.strongRecOn generalizing p with
  | ind n ih =>
    cases hparent : p.parent with
    | none => exact top p habs hparent
    | some above =>
      have hshorter := length_lt_of_parent hparent
      exact below p above habs hparent
        (ih above.length (by omega) (parent_spec habs hparent).1 rfl)

/-- What the path above takes over from every absolute path, all ancestors take over. -/
theorem of_mem_ancestors {P : Path → Prop}
    (up : ∀ p above : Path, p.isAbsolute = true → p.parent = some above → P p → P above)
    {p above : Path} (habs : p.isAbsolute = true) (habove : above ∈ p.ancestors) (hp : P p) :
    P above := by
  refine parent_induction (P := fun p => P p → above ∈ p.ancestors → P above) ?_ ?_ habs hp habove
  · intro p _ hparent hp hself
    rw [ancestors_of_parent_eq_none hparent, List.mem_singleton] at hself
    rwa [hself]
  · intro p next habs hparent ih hp hmem
    rw [ancestors_of_parent hparent, List.mem_cons] at hmem
    rcases hmem with rfl | hmem
    · exact hp
    · exact ih (up p next habs hparent hp) hmem

/-- The ancestors of an absolute path are absolute, and their pieces are the start of its own. -/
theorem pieces_of_mem_ancestors {p above : Path} (habs : p.isAbsolute = true)
    (h : above ∈ p.ancestors) :
    above.isAbsolute = true ∧ ∃ back, p.pieces = above.pieces ++ back := by
  refine of_mem_ancestors (P := fun x => x.isAbsolute = true ∧ ∃ back, p.pieces = x.pieces ++ back)
    ?_ habs h ⟨habs, [], (List.append_nil _).symm⟩
  rintro x next - hparent ⟨hx, back, hback⟩
  obtain ⟨hnext, c, hpieces⟩ := parent_spec hx hparent
  exact ⟨hnext, c :: back, by rw [hback, hpieces, List.append_assoc, List.singleton_append]⟩

end InterfacePackage.Path
