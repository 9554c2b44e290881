import InterfacePackage.Text.Basic

/-!
# White space

The characters with the Unicode property `White_Space`, and trimming by it. A keyword is followed
by, and a remapping is trimmed of, any of these.
-/

namespace InterfacePackage

/-- The twenty-five characters with the Unicode property `White_Space`. -/
def blankCodes : List Nat :=
  [0x9, 0xA, 0xB, 0xC, 0xD, 0x20, 0x85, 0xA0, 0x1680,
   0x2000, 0x2001, 0x2002, 0x2003, 0x2004, 0x2005, 0x2006, 0x2007, 0x2008, 0x2009, 0x200A,
   0x2028, 0x2029, 0x202F, 0x205F, 0x3000]

/-- Whether a character has the Unicode property `White_Space`. -/
def isBlank (c : Char) : Bool := blankCodes.contains c.toNat

namespace Text

/-- A text without its leading white space. -/
def trimStart (t : Text) : Text := t.dropWhile isBlank

/-- A text without its trailing white space. -/
def trimEnd (t : Text) : Text := (t.reverse.dropWhile isBlank).reverse

/-- A text without the white space at either end. -/
def trim (t : Text) : Text := trimEnd (trimStart t)

end Text

end InterfacePackage
