import InterfacePackage.FileTree.Basic

/-!
# Strides

How far a run of names leads from a directory through directories. Where everything stands in a
directory, one look at the far end of a run tells of the whole way, so the length of a stride is
found by halving. Main statement: `entryAt_take_stride` (every place on a stride is a directory).
-/

namespace InterfacePackage

/-- The last number at which a test holds, found by halving the numbers from `low` to `high`. The
test holds at `low`, fails at `high`, and changes once in between. -/
def bisect (test : Nat → Bool) : (rounds : Nat) → (low high : Nat) → Nat
  | 0, low, _ => low
  | rounds + 1, low, high =>
    let middle := (low + high) / 2
    if test middle then bisect test rounds middle high else bisect test rounds low middle

/-- The test holds at the number found. -/
theorem bisect_holds {test : Nat → Bool} {rounds low high : Nat} (h : test low = true) :
    test (bisect test rounds low high) = true := by
  induction rounds generalizing low high with
  | zero => exact h
  | succ rounds ih =>
    rw [bisect]
    split
    · rename_i hm
      exact ih hm
    · exact ih h

/-- The number found is not beyond the end. -/
theorem bisect_le {test : Nat → Bool} {rounds low high : Nat} (h : low ≤ high) :
    bisect test rounds low high ≤ high := by
  induction rounds generalizing low high with
  | zero => exact h
  | succ rounds ih =>
    rw [bisect]
    split
    · exact ih (by omega)
    · exact Nat.le_trans (ih (by omega)) (by omega)

namespace FileTree

/-- Everything stands in a directory. -/
def IsSound (t : FileTree) : Prop :=
  ∀ (p : Place) (n : Name), t.entryAt (p ++ [n]) ≠ none → t.entryAt p = some .directory

/-- What is above a directory is a directory. -/
theorem IsSound.above {t : FileTree} (h : t.IsSound) {p q : Place}
    (hq : t.entryAt (p ++ q) = some .directory) : t.entryAt p = some .directory := by
  induction q generalizing p with
  | nil => simpa using hq
  | cons n q ih =>
    have hn : t.entryAt (p ++ [n]) = some .directory := ih (by simpa using hq)
    exact h p n (by simp [hn])

/-- Whether the first `k` of the names lead from a place to a directory. -/
def leads (t : FileTree) (here : Place) (names : List Name) (k : Nat) : Bool :=
  t.entryAt (here ++ names.take k) = some .directory

/-- How many of the names lead from a directory through directories. -/
def stride (t : FileTree) (here : Place) (names : List Name) : Nat :=
  if t.leads here names names.length then names.length
  else bisect (t.leads here names) (names.length.log2 + 1) 0 names.length

/-- No stride has more steps than there are names. -/
theorem stride_le {t : FileTree} {here : Place} {names : List Name} :
    t.stride here names ≤ names.length := by
  rw [stride]
  split
  · exact Nat.le_refl _
  · exact bisect_le (Nat.zero_le _)

/-- Every place on a stride is a directory. -/
theorem entryAt_take_stride {t : FileTree} (h : t.IsSound) {here : Place} {names : List Name}
    (hhere : t.entryAt here = some .directory) {k : Nat} (hk : k ≤ t.stride here names) :
    t.entryAt (here ++ names.take k) = some .directory := by
  have hend : t.entryAt (here ++ names.take (t.stride here names)) = some .directory := by
    have hstart : t.leads here names 0 = true := by simpa [leads] using hhere
    rw [stride]
    split
    · rename_i hall
      exact of_decide_eq_true hall
    · exact of_decide_eq_true (bisect_holds hstart)
  refine h.above (q := (names.take (t.stride here names)).drop k) ?_
  rw [List.append_assoc]
  have hsplit := List.take_append_drop k (names.take (t.stride here names))
  rw [List.take_take, Nat.min_eq_left hk] at hsplit
  rw [hsplit]
  exact hend

end FileTree

end InterfacePackage
