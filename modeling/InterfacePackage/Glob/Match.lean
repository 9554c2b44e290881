import InterfacePackage.Glob.Pattern

/-!
# Matching globs

A pattern matches all of a path or nothing, byte by byte. The positions of a text are those before
each of its bytes and the one at its end. The tokens read so far are kept as marks on the positions
that they may lead to, and each token moves the marks in one pass; a pattern matches when its last
token leaves a mark at the end. Main statement: `length_marksAfterBranch` (there is always one mark
per position).
-/

namespace InterfacePackage.Glob

/-- The ranges of bytes that a range of characters stands for: characters of several bytes stand for
each of them, and the range runs between the bytes on either side of the dash. -/
def byteRanges (range : Char × Char) : List (UInt8 × UInt8) :=
  let (a, b) := range
  let before := Utf8.encode [a]
  let after := Utf8.encode [b]
  if a = b then before.map fun x => (x, x)
  else before.dropLast.map (fun x => (x, x))
    ++ [(before.getLast?.getD 0, after.headD 0)] ++ after.tail.map fun x => (x, x)

/-- Whether a byte is in one of the ranges. -/
def inRanges (ranges : List (UInt8 × UInt8)) (b : UInt8) : Bool :=
  ranges.any fun (low, high) => low ≤ b && b ≤ high

/-! ## Marks -/

/-- For each position of a text, whether it is marked. -/
abbrev Marks := List Bool

/-- The marks on a text of a length with only its first position marked. -/
def Marks.first (length : Nat) : Marks := true :: List.replicate length false

/-- Every mark moved over the byte after it, where that byte passes a test. -/
def Marks.past (m : Marks) (s : Bytes) (test : UInt8 → Bool) : Marks :=
  false :: List.zipWith (fun marked b => marked && test b) m s

/-- Every position from the first mark on marked. -/
def Marks.onward : Marks → Marks
  | [] => []
  | true :: rest => true :: rest.map fun _ => true
  | false :: rest => false :: onward rest

/-- Every position marked that is marked in one of two. -/
def Marks.union (m n : Marks) : Marks := List.zipWith (· || ·) m n

/-- Every mark moved over a slash. -/
def Marks.pastSlash (m : Marks) (s : Bytes) : Marks := m.past s (· = 0x2F)

/-! ## Tokens -/

mutual

/-- Whether a token can match nothing but the empty text, being braces around such alternatives. -/
def Token.isVoid : Token → Bool
  | .choice branches => areVoid branches
  | _ => false

/-- Whether all tokens of a branch are void. -/
def isVoidBranch : List Token → Bool
  | [] => true
  | token :: rest => token.isVoid && isVoidBranch rest

/-- Whether all branches are void. -/
def areVoid : List (List Token) → Bool
  | [] => true
  | branch :: rest => isVoidBranch branch && areVoid rest

end

mutual

/-- Where a token may lead to from the marked positions of a text. -/
def Token.marksAfter (s : Bytes) : Token → Marks → Marks
  | .literal bytes, m => bytes.foldl (fun m b => m.past s (· = b)) m
  | .any, m => m.past s fun _ => true
  | .many, m => m.onward
  | .leading, m => m.union (m.onward.pastSlash s)
  | .trailing, m => (m.pastSlash s).onward
  | .inner, m => (m.pastSlash s).union ((m.pastSlash s).onward.pastSlash s)
  | .oneOf negated ranges, m =>
    let ranges := ranges.flatMap byteRanges
    m.past s fun b => inRanges ranges b != negated
  | .choice branches, m => if areVoid branches then m else marksAfterAny s branches m

/-- Where the tokens of a branch may lead to, one after another. -/
def marksAfterBranch (s : Bytes) : List Token → Marks → Marks
  | [], m => m
  | token :: more, m => marksAfterBranch s more (token.marksAfter s m)

/-- Where one of the branches may lead to. Void ones do not count. -/
def marksAfterAny (s : Bytes) : List (List Token) → Marks → Marks
  | [], m => m.map fun _ => false
  | branch :: more, m =>
    if isVoidBranch branch then marksAfterAny s more m
    else (marksAfterBranch s branch m).union (marksAfterAny s more m)

end

/-- Whether tokens match all of a text. A leading `**` alone matches everything. -/
def isMatch (tokens : List Token) (s : Bytes) : Bool :=
  match tokens with
  | [.leading] => true
  | _ => (marksAfterBranch s tokens (.first s.length)).getLast? = some true

/-! ## There is one mark per position -/

@[simp] theorem Marks.length_onward (m : Marks) : m.onward.length = m.length := by
  induction m with
  | nil => rfl
  | cons marked rest ih => cases marked <;> simp [onward, ih]

theorem Marks.length_past {m : Marks} {s : Bytes} (h : m.length = s.length + 1)
    (test : UInt8 → Bool) : (m.past s test).length = s.length + 1 := by
  simp [past, h]

theorem Marks.length_union {m n : Marks} {k : Nat} (hm : m.length = k) (hn : n.length = k) :
    (m.union n).length = k := by
  simp [union, hm, hn]

mutual

/-- A token keeps one mark per position. -/
theorem Token.length_marksAfter {s : Bytes} (token : Token) {m : Marks}
    (h : m.length = s.length + 1) : (token.marksAfter s m).length = s.length + 1 := by
  match token with
  | .literal bytes =>
    rw [Token.marksAfter]
    induction bytes generalizing m with
    | nil => exact h
    | cons b rest ih => exact ih (Marks.length_past h _)
  | .any => exact Marks.length_past h _
  | .many => simpa [Token.marksAfter] using h
  | .leading =>
    exact Marks.length_union h (Marks.length_past (by simpa using h) _)
  | .trailing =>
    rw [Token.marksAfter, Marks.length_onward]
    exact Marks.length_past h _
  | .inner =>
    have hslash : (m.pastSlash s).length = s.length + 1 := Marks.length_past h _
    exact Marks.length_union hslash (Marks.length_past (by simpa using hslash) _)
  | .oneOf _ _ => exact Marks.length_past h _
  | .choice branches =>
    rw [Token.marksAfter]
    split
    · exact h
    · exact length_marksAfterAny branches h

/-- The tokens of a branch keep one mark per position. -/
theorem length_marksAfterBranch {s : Bytes} (branch : List Token) {m : Marks}
    (h : m.length = s.length + 1) : (marksAfterBranch s branch m).length = s.length + 1 := by
  match branch with
  | [] => exact h
  | token :: more => exact length_marksAfterBranch more (token.length_marksAfter h)

/-- Alternatives keep one mark per position. -/
theorem length_marksAfterAny {s : Bytes} (branches : List (List Token)) {m : Marks}
    (h : m.length = s.length + 1) : (marksAfterAny s branches m).length = s.length + 1 := by
  match branches with
  | [] => simpa [marksAfterAny] using h
  | branch :: more =>
    rw [marksAfterAny]
    split
    · exact length_marksAfterAny more h
    · exact Marks.length_union (length_marksAfterBranch branch h) (length_marksAfterAny more h)

end

end InterfacePackage.Glob
