import InterfacePackage.Proofs.Import.Keyword
import InterfacePackage.Proofs.Text.Utf8
import Mathlib.Data.List.Forall2

/-!
# Import statements by letters and by bytes

The keyword of a statement is cut off at a number of bytes. Such a cut is made at a place between
two characters only, where no byte stands that continues one; at any other place nothing is cut off,
and the line is no statement. Main statements: `map_encode_cutAtByte` (what is cut off a text are
the bytes on both sides of a boundary), `classify_encode` (classifying the bytes takes no others)
and `isStatement_classifies`.
-/

namespace InterfacePackage

namespace Utf8

/-! ## Boundaries between characters -/

/-- Whether a place in the bytes of a text is one of its ends or lies between two characters: no
byte stands there that continues a character. -/
def isBoundary (bytes : Bytes) (n : Nat) : Bool :=
  match bytes[n]? with
  | some b => !isTail b
  | none => n = bytes.length

/-- How many bytes a character has, by its number. -/
theorem utf8Size_eq (c : Char) : c.utf8Size =
    if c.toNat < 0x80 then 1
    else if c.toNat < 0x800 then 2
    else if c.toNat < 0x10000 then 3
    else 4 := by
  have hval : ∀ k : UInt32, c.val ≤ k ↔ c.toNat ≤ k.toNat := fun k => UInt32.le_iff_toNat_le
  simp only [Char.utf8Size, hval, UInt32.toNat_ofNatLT, Nat.lt_succ_iff]

/-- The first byte of a character continues none, and all others do. -/
theorem exists_encodeChar (c : Char) : ∃ lead more, encodeChar c = lead :: more ∧
    isTail lead = false ∧ (∀ b ∈ more, isTail b = true) ∧ more.length + 1 = c.utf8Size := by
  have hc : c.toNat < 0x110000 := by
    rcases c.valid with h | h
    · exact Nat.lt_of_lt_of_le h (by decide)
    · exact h.2
  rw [utf8Size_eq, encodeChar]
  generalize c.toNat = n at *
  have htail : ∀ ks : List Nat, ∀ b ∈ ks.map (fun k => UInt8.ofNat (0x80 + k % 64)),
      isTail b = true := by
    intro ks b hb
    obtain ⟨k, -, rfl⟩ := List.mem_map.1 hb
    exact isTail_ofNat (Nat.mod_lt k (by decide))
  have hlead : ∀ k, k < 256 → k < 0x80 ∨ 0xC0 ≤ k → isTail (.ofNat k) = false := by
    intro k hk hout
    rw [Bool.eq_false_iff, Ne, isTail_iff, toNat_ofNat_of_lt hk]
    omega
  split
  · exact ⟨_, [], rfl, hlead n (by omega) (by omega), by simp, rfl⟩
  split
  · exact ⟨_, _, rfl, hlead _ (by omega) (by omega), htail [n], rfl⟩
  split
  · exact ⟨_, _, rfl, hlead _ (by omega) (by omega), htail [n / 64, n], rfl⟩
  · exact ⟨_, _, rfl, hlead _ (by omega) (by omega), htail [n / 4096, n / 64, n], rfl⟩

/-- A character is written in as many bytes as it has. -/
theorem length_encodeChar (c : Char) : (encodeChar c).length = c.utf8Size := by
  obtain ⟨lead, more, hchar, -, -, hsize⟩ := exists_encodeChar c
  rw [hchar, List.length_cons, hsize]

/-- A text starts at a boundary. -/
theorem isBoundary_zero (t : Text) : isBoundary (encode t) 0 = true := by
  cases t with
  | nil => rfl
  | cons c t =>
    obtain ⟨lead, more, hchar, hlead, -, -⟩ := exists_encodeChar c
    rw [encode_cons, hchar]
    show (!isTail lead) = true
    rw [hlead]
    rfl

/-- Behind the first character of a text the boundaries are those of the rest. -/
theorem isBoundary_add (c : Char) (t : Text) (n : Nat) :
    isBoundary (encode (c :: t)) (c.utf8Size + n) = isBoundary (encode t) n := by
  have hlength := length_encodeChar c
  unfold isBoundary
  rw [encode_cons, List.getElem?_append_right (by omega), hlength, Nat.add_sub_cancel_left,
    List.length_append, hlength]
  cases (encode t)[n]? with
  | some b => rfl
  | none => exact decide_eq_decide.2 Nat.add_left_cancel_iff

/-- Inside of it there is none. -/
theorem isBoundary_inside (c : Char) (t : Text) {n : Nat} (hn : 0 < n) (h : n < c.utf8Size) :
    isBoundary (encode (c :: t)) n = false := by
  obtain ⟨lead, more, hchar, -, hmore, hsize⟩ := exists_encodeChar c
  obtain ⟨k, rfl⟩ := Nat.exists_eq_succ_of_ne_zero (Nat.pos_iff_ne_zero.1 hn)
  have hk : k < more.length := by omega
  unfold isBoundary
  rw [encode_cons, hchar, List.cons_append, List.getElem?_cons_succ, List.getElem?_append_left hk,
    List.getElem?_eq_getElem hk]
  show (!isTail more[k]) = false
  rw [hmore _ (List.getElem_mem hk)]
  rfl

end Utf8

namespace Import

open Utf8 (encode isBoundary)

/-! ## Cuts at boundaries -/

/-- A text is cut after a number of bytes exactly if there is a boundary, and then its bytes are cut
there. -/
theorem map_encode_cutAtByte (n : Nat) (t : Text) :
    (cutAtByte n t).map (Prod.map encode encode)
      = if isBoundary (encode t) n then some ((encode t).take n, (encode t).drop n) else none := by
  induction t generalizing n with
  | nil =>
    cases n with
    | zero => rw [cutAtByte]; rfl
    | succ n => rw [cutAtByte]; rfl
  | cons c t ih =>
    cases n with
    | zero =>
      rw [cutAtByte, if_pos (Utf8.isBoundary_zero _)]
      rfl
    | succ n =>
      rw [cutAtByte]
      by_cases hsize : c.utf8Size ≤ n + 1
      · obtain ⟨m, hm⟩ := Nat.exists_eq_add_of_le hsize
        have hrest : n + 1 - c.utf8Size = m := by omega
        have hlength := Utf8.length_encodeChar c
        have hcut := ih m
        rw [if_pos hsize, hrest, hm, Utf8.isBoundary_add]
        split at hcut
        · rename_i hb
          obtain ⟨⟨before, after⟩, hfound, heq⟩ := Option.map_eq_some_iff.1 hcut
          obtain ⟨hbefore, hafter⟩ := Prod.mk.inj heq
          rw [if_pos hb, hfound, Utf8.encode_cons, ← hlength, List.take_length_add_append,
            List.drop_length_add_append, ← hbefore, ← hafter]
          rfl
        · rename_i hb
          rw [if_neg hb, Option.map_eq_none_iff.1 hcut]
          rfl
      · rw [if_neg hsize, Utf8.isBoundary_inside c t (by omega) (by omega)]
        rfl

example : isBoundary (encode "imporé './A.sol';") keyword.length = false := by decide

/-! ## Letters of either case -/

/-- The small letter of a capital one of ASCII comes 32 places behind it. -/
theorem toNat_toLower (c : Char) : c.toLower.toNat =
    if 65 ≤ c.toNat ∧ c.toNat ≤ 90 then c.toNat + 32 else c.toNat := by
  unfold Char.toLower
  split
  · rename_i hupper
    have hlow : 65 ≤ c.toNat := hupper.1
    have hhigh : c.toNat ≤ 90 := hupper.2
    rw [if_pos ⟨hlow, hhigh⟩]
    show (c.val + 32).toNat = c.val.toNat + 32
    rw [UInt32.toNat_add]
    exact Nat.mod_eq_of_lt (by show c.toNat + 32 < _; omega)
  · rename_i hupper
    rw [if_neg]
    exact fun h => hupper h

/-- A character's small letter is a given one exactly if the character is that letter or its
capital. -/
theorem toLower_eq_iff {c small capital : Char} (hcapital : 65 ≤ capital.toNat ∧ capital.toNat ≤ 90)
    (hsmall : small.toNat = capital.toNat + 32) : c.toLower = small ↔ c = small ∨ c = capital := by
  rw [← Char.toNat_inj, ← Char.toNat_inj, ← Char.toNat_inj, toNat_toLower]
  split <;> omega

/-- Whether a pair is a small letter of ASCII and its capital. -/
def isLetter (letter : Char × Char) : Bool :=
  65 ≤ letter.2.toNat && letter.2.toNat ≤ 90 && letter.1.toNat = letter.2.toNat + 32

/-- A text made small is one of small letters exactly if it has these letters, each small or
capital. -/
theorem map_toLower_eq_iff {word : Text} {letters : List (Char × Char)}
    (h : letters.all isLetter = true) :
    word.map Char.toLower = letters.map (·.1) ↔
      List.Forall₂ (fun c letter => c = letter.1 ∨ c = letter.2) word letters := by
  induction letters generalizing word with
  | nil => rw [List.map_nil, List.map_eq_nil_iff, List.forall₂_nil_right_iff]
  | cons letter letters ih =>
    rw [List.all_cons, Bool.and_eq_true] at h
    have hletter := h.1
    simp only [isLetter, Bool.and_eq_true, decide_eq_true_eq] at hletter
    cases word with
    | nil => simp
    | cons c word =>
      rw [List.map_cons, List.map_cons, List.forall₂_cons, List.cons_eq_cons,
        toLower_eq_iff hletter.1 hletter.2, ih h.2]

/-- The letters of the keyword, each small and capital. -/
def keywordLetters : List (Char × Char) :=
  [('i', 'I'), ('m', 'M'), ('p', 'P'), ('o', 'O'), ('r', 'R'), ('t', 'T')]

/-- A text is the keyword up to the case of ASCII letters exactly if it has its six letters, each
small or capital. -/
theorem eqIgnoringCase_keyword_iff {word : Text} : eqIgnoringCase word keyword = true ↔
    List.Forall₂ (fun c letter => c = letter.1 ∨ c = letter.2) word keywordLetters := by
  have hletters : keywordLetters.all isLetter = true := by decide
  have hkeyword : keyword.map Char.toLower = keywordLetters.map (·.1) := by decide
  rw [eqIgnoringCase, decide_eq_true_eq, hkeyword, map_toLower_eq_iff hletters]

/-! ## Classifying bytes -/

/-- The small letter of a byte that is a capital one of ASCII; any other byte as it is. -/
def lowerByte (b : UInt8) : UInt8 :=
  if 65 ≤ b.toNat ∧ b.toNat ≤ 90 then .ofNat (b.toNat + 32) else b

/-- The bytes of a text before a place; nothing where the place is no boundary. -/
def upTo? (bytes : Bytes) (n : Nat) : Option Bytes :=
  if isBoundary bytes n then some (bytes.take n) else none

/-- The bytes from a place on; nothing where the place is no boundary. -/
def onward? (bytes : Bytes) (n : Nat) : Option Bytes :=
  if isBoundary bytes n then some (bytes.drop n) else none

/-- Whether the bytes of a line behind its leading white space make it an import statement. The
first bytes may be asked for in vain, and then the line is no statement. The bytes behind them are
taken without a second thought: if there were no boundary, there would be no answer. -/
def classify (bytes : Bytes) : Option Bool :=
  match upTo? bytes keyword.length with
  | none => some false
  | some word =>
    if word.map lowerByte = encode keyword then
      (onward? bytes keyword.length).map fun after =>
        (Utf8.scan after).head?.any fun c => c.any isBlank
    else some false

/-- The small letter of a character is written as its bytes with those of capital letters made
small. -/
theorem map_lowerByte_encodeChar (c : Char) :
    (Utf8.encodeChar c).map lowerByte = Utf8.encodeChar c.toLower := by
  by_cases hc : c.toNat < 0x80
  · have hlower : c.toLower.toNat < 0x80 := by
      rw [toNat_toLower]
      split <;> omega
    rw [Utf8.encodeChar, if_pos hc, Utf8.encodeChar, if_pos hlower, List.map_singleton, lowerByte,
      Utf8.toNat_ofNat_of_lt (by omega), toNat_toLower]
    split <;> rfl
  · have hsame : c.toLower = c := by
      rw [← Char.toNat_inj, toNat_toLower, if_neg (by omega)]
    have hbytes : ∀ b ∈ Utf8.encodeChar c, lowerByte b = b := by
      intro b hb
      have hhigh : ¬ b.toNat < 0x80 := fun hlow => hc (Utf8.eq_of_mem_encodeChar hb hlow ▸ hlow)
      rw [lowerByte, if_neg (by omega)]
    rw [hsame, List.map_congr_left hbytes, List.map_id']

/-- So is a whole text. -/
theorem map_lowerByte_encode (t : Text) :
    (encode t).map lowerByte = encode (t.map Char.toLower) := by
  induction t with
  | nil => rfl
  | cons c t ih =>
    rw [Utf8.encode_cons, List.map_append, map_lowerByte_encodeChar, ih, List.map_cons,
      Utf8.encode_cons]

/-- There always is an answer, and it is whether the line is a statement. -/
theorem classify_encode (line : Text) :
    classify (encode line.trimStart) = some (isStatement line) := by
  have hcut := map_encode_cutAtByte keyword.length line.trimStart
  unfold classify upTo? onward? isStatement
  by_cases hb : isBoundary (encode line.trimStart) keyword.length = true
  · rw [if_pos hb] at hcut
    obtain ⟨⟨word, after⟩, hfound, heq⟩ := Option.map_eq_some_iff.1 hcut
    obtain ⟨hword, hafter⟩ := Prod.mk.inj heq
    have hsame : (encode word).map lowerByte = encode keyword ↔
        eqIgnoringCase word keyword = true := by
      have hkeyword : keyword.map Char.toLower = keyword := by decide
      rw [map_lowerByte_encode, eqIgnoringCase, decide_eq_true_eq, hkeyword]
      exact ⟨Utf8.encode_injective, congrArg encode⟩
    have hfirst : (Utf8.scan (encode after)).head?.any (fun c => c.any isBlank)
        = after.head?.any isBlank := by
      rw [Utf8.scan_encode]
      cases after <;> rfl
    simp only [if_pos hb, hfound, ← hword, ← hafter, hsame, Option.map_some, hfirst]
    cases eqIgnoringCase word keyword <;> rfl
  · rw [if_neg hb] at hcut
    rw [if_neg hb, Option.map_eq_none_iff.1 hcut]

/-! ## Statements -/

/-- A line is an import statement exactly if it is white space, if any, the six letters of the
keyword, each small or capital, a white space character, and anything behind it. That is also the
answer that its bytes are given, which are never cut inside a character. -/
theorem isStatement_classifies (line : Text) :
    (isStatement line = true ↔ ∃ blanks word gap tail, (∀ c ∈ blanks, isBlank c = true) ∧
      List.Forall₂ (fun c letter => c = letter.1 ∨ c = letter.2) word keywordLetters ∧
      isBlank gap = true ∧ line = blanks ++ word ++ gap :: tail) ∧
    classify (encode line.trimStart) = some (isStatement line) := by
  refine ⟨isStatement_iff.trans ?_, classify_encode line⟩
  constructor
  · rintro ⟨blanks, word, gap, tail, hhead, hline⟩
    exact ⟨blanks, word, gap, tail, hhead.blank, eqIgnoringCase_keyword_iff.1 hhead.keyword,
      hhead.ended, hline⟩
  · rintro ⟨blanks, word, gap, tail, hblanks, hword, hgap, hline⟩
    exact ⟨blanks, word, gap, tail, ⟨hblanks, eqIgnoringCase_keyword_iff.2 hword, hgap⟩, hline⟩

end Import

end InterfacePackage
