import InterfacePackage.Text.Seen

/-!
# Texts in messages

A text that a message quotes must be told from another by what is seen of it. So characters that are
not seen, or that are seen only as part of the character before them, are written by number, and the
quote and the backslash are escaped. Main statement: `isSeen_of_mem_mention` (nothing hidden is left
in a quoted text).
-/

namespace InterfacePackage

namespace Text

/-- The sign that stands after a backslash for a character, where there is one. -/
def mentionSign? : Char → Option Char
  | '"' => some '"'
  | '\\' => some '\\'
  | '\x00' => some '0'
  | '\t' => some 't'
  | '\r' => some 'r'
  | '\n' => some 'n'
  | _ => none

/-- A character as it stands in a quoted text. -/
def mentionChar (c : Char) : Text :=
  match mentionSign? c with
  | some sign => ['\\', sign]
  | none =>
    if isSeen c then [c] else '\\' :: 'u' :: '\x7b' :: (Nat.toDigits 16 c.toNat ++ ['\x7d'])

/-- A text quoted in a message. -/
def mention (t : Text) : Text := '"' :: (t.flatMap mentionChar ++ ['"'])

/-- Digits are seen. -/
theorem isSeen_of_mem_toDigitsCore {fuel n : Nat} {ds : Text} (hds : ∀ d ∈ ds, isSeen d = true) :
    ∀ d ∈ Nat.toDigitsCore 16 fuel n ds, isSeen d = true := by
  have digit : ∀ k < 16, 0x20 ≤ (Nat.digitChar k).toNat ∧ (Nat.digitChar k).toNat < 0x7F := by
    decide
  induction fuel generalizing n ds with
  | zero => simpa [Nat.toDigitsCore] using hds
  | succ fuel ih =>
    have more : ∀ d ∈ Nat.digitChar (n % 16) :: ds, isSeen d = true := by
      simpa using ⟨isSeen_of_toNat (digit _ (Nat.mod_lt _ (by decide))), hds⟩
    rw [Nat.toDigitsCore]
    split
    · exact more
    · exact ih more

/-- Signs are seen. -/
theorem isSeen_of_mentionSign? {c sign : Char} (h : mentionSign? c = some sign) :
    isSeen sign = true := by
  apply isSeen_of_toNat
  unfold mentionSign? at h
  split at h <;> cases h <;> decide

/-- What stands for a character is seen. -/
theorem isSeen_of_mem_mentionChar {c d : Char} (h : d ∈ mentionChar c) : isSeen d = true := by
  have digits : ∀ d ∈ Nat.toDigits 16 c.toNat, isSeen d = true :=
    isSeen_of_mem_toDigitsCore (by simp)
  unfold mentionChar at h
  split at h
  · rename_i sign hsign
    simp only [List.mem_cons, List.not_mem_nil, or_false] at h
    rcases h with rfl | rfl
    · exact isSeen_of_toNat (by decide)
    · exact isSeen_of_mentionSign? hsign
  split at h
  · rename_i hc
    simp only [List.mem_cons, List.not_mem_nil, or_false] at h
    exact h ▸ hc
  · simp only [List.mem_cons, List.mem_append, List.not_mem_nil, or_false] at h
    rcases h with rfl | rfl | rfl | h | rfl
    · exact isSeen_of_toNat (by decide)
    · exact isSeen_of_toNat (by decide)
    · exact isSeen_of_toNat (by decide)
    · exact digits d h
    · exact isSeen_of_toNat (by decide)

/-- Nothing hidden is left in a quoted text. -/
theorem isSeen_of_mem_mention {t : Text} {d : Char} (h : d ∈ mention t) : isSeen d = true := by
  simp only [mention, List.mem_cons, List.mem_append, List.mem_flatMap, List.not_mem_nil,
    or_false] at h
  rcases h with rfl | ⟨c, _, hd⟩ | rfl
  · exact isSeen_of_toNat (by decide)
  · exact isSeen_of_mem_mentionChar hd
  · exact isSeen_of_toNat (by decide)

end Text

end InterfacePackage
