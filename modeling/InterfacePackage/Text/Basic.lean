/-!
# Text

Texts are lists of characters, so that every scan over them is a recursion on data. This module
holds cutting a text at a separator and putting the pieces together again, and the search for the
first occurrence of one text in another. Main statements: `join_split` (cutting and joining with the
same separator loses nothing) and `eq_of_cutAt` (a cut text is the part before, the pattern and the
part after).
-/

namespace InterfacePackage

/-- A text is a list of Unicode scalar values. -/
abbrev Text := List Char

/-- A literal may stand where a text is expected. -/
instance : Coe String Text := ⟨String.toList⟩

namespace Text

/-! ## Cutting at a separator -/

/-- One character put in front of an already cut text. -/
def splitStep (sep c : Char) (pieces : List Text) : List Text :=
  if c = sep then [] :: pieces
  else match pieces with
    | [] => [[c]]
    | piece :: rest => (c :: piece) :: rest

/-- The pieces of a text between the occurrences of `sep`; there is one piece more than there are
occurrences, so the empty text has one empty piece. -/
def split (sep : Char) (t : Text) : List Text :=
  t.foldr (splitStep sep) [[]]

/-- Pieces put together with `sep` between neighbours. -/
def join (sep : Text) : List Text → Text
  | [] => []
  | [piece] => piece
  | piece :: rest => piece ++ sep ++ join sep rest

@[simp] theorem split_nil (sep : Char) : split sep [] = [[]] := rfl

@[simp] theorem split_cons (sep c : Char) (t : Text) :
    split sep (c :: t) = splitStep sep c (split sep t) := rfl

/-- A cut text has at least one piece. -/
theorem split_ne_nil (sep : Char) (t : Text) : split sep t ≠ [] := by
  cases t with
  | nil => simp
  | cons c t =>
    simp only [split_cons, splitStep]
    split
    · simp
    · split <;> simp

/-- Joining the pieces with the separator gives the text back. -/
theorem join_split (sep : Char) (t : Text) : join [sep] (split sep t) = t := by
  induction t with
  | nil => rfl
  | cons c t ih =>
    simp only [split_cons, splitStep]
    rcases h : split sep t with _ | ⟨piece, rest⟩
    · exact absurd h (split_ne_nil sep t)
    · rw [h] at ih
      split
      · rename_i hc
        simp [join, ih, hc]
      · cases rest <;> simp_all [join]

/-! ## Searching -/

/-- The text before the first occurrence of `pattern` and the text after it; nothing when `pattern`
does not occur. The empty pattern occurs at the start. -/
def cutAt (pattern : Text) : Text → Option (Text × Text)
  | [] => if pattern = [] then some ([], []) else none
  | c :: rest =>
    if pattern.isPrefixOf (c :: rest) then some ([], (c :: rest).drop pattern.length)
    else (cutAt pattern rest).map fun (before, after) => (c :: before, after)

/-- Whether `pattern` occurs in `t`. -/
def contains (t pattern : Text) : Bool := (cutAt pattern t).isSome

/-- The first occurrence of `pattern` replaced by `replacement`. -/
def replaceFirst (t pattern replacement : Text) : Text :=
  match cutAt pattern t with
  | some (before, after) => before ++ replacement ++ after
  | none => t

/-- A cut text is what stands before, the pattern, and what stands after. -/
theorem eq_of_cutAt {pattern t before after : Text} (h : cutAt pattern t = some (before, after)) :
    t = before ++ pattern ++ after := by
  induction t generalizing before after with
  | nil =>
    simp only [cutAt] at h
    split at h <;> simp_all
  | cons c rest ih =>
    simp only [cutAt] at h
    split at h
    · rename_i hp
      obtain ⟨s, hs⟩ := List.isPrefixOf_iff_prefix.1 hp
      simp only [Option.some.injEq, Prod.mk.injEq] at h
      obtain ⟨rfl, rfl⟩ := h
      simp [← hs]
    · simp only [Option.map_eq_some_iff, Prod.exists, Prod.mk.injEq] at h
      obtain ⟨b, a, hcut, rfl, rfl⟩ := h
      simp [ih hcut]

/-- The text before the last occurrence of `c`; nothing when `c` does not occur. -/
def beforeLast (c : Char) (t : Text) : Option Text :=
  match t.reverse.dropWhile (· ≠ c) with
  | [] => none
  | _ :: before => some before.reverse

/-! ## Numbers -/

/-- A natural number in decimal digits. -/
def ofNat (n : Nat) : Text := Nat.toDigits 10 n

/-- An integer in decimal digits, with a minus sign when it is negative. -/
def ofInt : Int → Text
  | .ofNat n => ofNat n
  | .negSucc n => '-' :: ofNat (n + 1)

end Text

end InterfacePackage
