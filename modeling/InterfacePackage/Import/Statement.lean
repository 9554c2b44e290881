import InterfacePackage.Text.Blank

/-!
# Import statements

A line is an import statement when, after any white space, it starts with the keyword `import` in
any mixture of ASCII cases and white space follows. What comes after, its quotes and its end do not
matter.

The keyword is cut off at a number of bytes, which is a cut between characters only if no character
lies across it; `cutAtByte` answers nothing in that case.
-/

namespace InterfacePackage.Import

/-- The keyword of an import statement. -/
def keyword : Text := "import"

/-- A text cut after `n` bytes of its UTF-8 form; nothing when it is shorter or when a character
lies across the cut. -/
def cutAtByte : Nat → Text → Option (Text × Text)
  | 0, t => some ([], t)
  | _ + 1, [] => none
  | n + 1, c :: rest =>
    if c.utf8Size ≤ n + 1 then
      (cutAtByte (n + 1 - c.utf8Size) rest).map fun (before, after) => (c :: before, after)
    else none
termination_by _ t => t.length

/-- Equality up to the case of ASCII letters. -/
def eqIgnoringCase (a b : Text) : Bool := a.map Char.toLower = b.map Char.toLower

/-- Whether a line is an import statement. -/
def isStatement (line : Text) : Bool :=
  match cutAtByte keyword.length line.trimStart with
  | some (word, after) => eqIgnoringCase word keyword && (after.head?.any isBlank)
  | none => false

end InterfacePackage.Import
