import InterfacePackage.Text.Utf8

/-!
# Bytes and their text

A byte sequence that reads as a text is what that text is written as, so texts and well-formed byte
sequences correspond. Main statements: `encode_of_decode`, `encode_injective` and
`slash_mem_encode_iff` (a byte is a slash only where a character is one).
-/

namespace InterfacePackage.Utf8

/-! ## One character -/

/-- A number that a character may have is the number of its character. -/
theorem toNat_charOfNat {n : Nat} (h : n.isValidChar) : (Char.ofNat n).toNat = n := by
  rw [Char.ofNat, dif_pos h]
  rfl

/-- A byte is made from its number. -/
theorem ofNat_eq_of_toNat {b : UInt8} {n : Nat} (h : n = b.toNat) : UInt8.ofNat n = b := by
  rw [h, UInt8.ofNat_toNat]

/-- What a first byte of a given width amounts to. -/
theorem width_eq_one_iff {a : UInt8} : width a = 1 ↔ a.toNat < 0x80 := by
  unfold width
  repeat' split
  all_goals omega

theorem width_eq_two_iff {a : UInt8} : width a = 2 ↔ 0xC2 ≤ a.toNat ∧ a.toNat < 0xE0 := by
  unfold width
  repeat' split
  all_goals omega

theorem width_eq_three_iff {a : UInt8} : width a = 3 ↔ 0xE0 ≤ a.toNat ∧ a.toNat < 0xF0 := by
  unfold width
  repeat' split
  all_goals omega

theorem width_eq_four_iff {a : UInt8} : width a = 4 ↔ 0xF0 ≤ a.toNat ∧ a.toNat < 0xF5 := by
  unfold width
  repeat' split
  all_goals omega

theorem isTail_iff {b : UInt8} : isTail b = true ↔ 0x80 ≤ b.toNat ∧ b.toNat < 0xC0 := by
  simp [isTail]

/-- A byte that may come second continues a character, within the bounds that its first byte
sets. -/
theorem bounds_of_isSecond {a b : UInt8} (h : isSecond a b = true) :
    0x80 ≤ b.toNat ∧ b.toNat < 0xC0 ∧ (a.toNat = 0xE0 → 0xA0 ≤ b.toNat)
      ∧ (a.toNat = 0xED → b.toNat < 0xA0) ∧ (a.toNat = 0xF0 → 0x90 ≤ b.toNat)
      ∧ (a.toNat = 0xF4 → b.toNat < 0x90) := by
  unfold isSecond isTail at h
  repeat' split at h
  all_goals
    simp only [Bool.and_eq_true, decide_eq_true_eq] at h
    omega

/-- A character read from one byte is written as it. -/
theorem encodeChar_one {a : UInt8} (h : width a = 1) : encodeChar (Char.ofNat a.toNat) = [a] := by
  rw [width_eq_one_iff] at h
  have hvalid : a.toNat.isValidChar := .inl (by omega)
  rw [encodeChar, toNat_charOfNat hvalid]
  simp only [if_pos h, UInt8.ofNat_toNat]

/-- A character read from two bytes is written as them. -/
theorem encodeChar_two {a b : UInt8} (h : width a = 2) (hb : isTail b = true) :
    encodeChar (Char.ofNat (a.toNat % 32 * 64 + low b)) = [a, b] := by
  rw [width_eq_two_iff] at h
  rw [isTail_iff] at hb
  unfold low
  generalize hn : a.toNat % 32 * 64 + b.toNat % 64 = n
  have hvalid : n.isValidChar := .inl (by omega)
  rw [encodeChar, toNat_charOfNat hvalid]
  simp only [if_neg (show ¬ n < 0x80 by omega), if_pos (show n < 0x800 by omega)]
  rw [ofNat_eq_of_toNat (b := a) (by omega), ofNat_eq_of_toNat (b := b) (by omega)]

/-- A character read from three bytes is written as them. -/
theorem encodeChar_three {a b c : UInt8} (h : width a = 3) (hb : isSecond a b = true)
    (hc : isTail c = true) :
    encodeChar (Char.ofNat (a.toNat % 16 * 4096 + low b * 64 + low c)) = [a, b, c] := by
  rw [width_eq_three_iff] at h
  rw [isTail_iff] at hc
  obtain ⟨hlow, hhigh, hoverlong, hsurrogate, -, -⟩ := bounds_of_isSecond hb
  unfold low
  generalize hn : a.toNat % 16 * 4096 + b.toNat % 64 * 64 + c.toNat % 64 = n
  -- the second byte keeps overlong forms and surrogates out
  have hsmall : ¬ n < 0x800 := by omega
  have hvalid : n < 0xD800 ∨ 0xDFFF < n ∧ n < 0x110000 := by omega
  rw [encodeChar, toNat_charOfNat hvalid]
  simp only [if_neg (show ¬ n < 0x80 by omega), if_neg hsmall, if_pos (show n < 0x10000 by omega)]
  rw [ofNat_eq_of_toNat (b := a) (by omega), ofNat_eq_of_toNat (b := b) (by omega),
    ofNat_eq_of_toNat (b := c) (by omega)]

/-- A character read from four bytes is written as them. -/
theorem encodeChar_four {a b c d : UInt8} (h : width a = 4) (hb : isSecond a b = true)
    (hc : isTail c = true) (hd : isTail d = true) :
    encodeChar (Char.ofNat (a.toNat % 8 * 262144 + low b * 4096 + low c * 64 + low d))
      = [a, b, c, d] := by
  rw [width_eq_four_iff] at h
  rw [isTail_iff] at hc hd
  obtain ⟨hlow, hhigh, -, -, hoverlong, hbeyond⟩ := bounds_of_isSecond hb
  unfold low
  generalize hn : a.toNat % 8 * 262144 + b.toNat % 64 * 4096 + c.toNat % 64 * 64 + d.toNat % 64 = n
  -- the second byte keeps overlong forms and what is beyond Unicode out
  have hsmall : ¬ n < 0x10000 := by omega
  have hvalid : n < 0xD800 ∨ 0xDFFF < n ∧ n < 0x110000 := by omega
  rw [encodeChar, toNat_charOfNat hvalid]
  simp only [if_neg (show ¬ n < 0x80 by omega), if_neg (show ¬ n < 0x800 by omega), if_neg hsmall]
  rw [ofNat_eq_of_toNat (b := a) (by omega), ofNat_eq_of_toNat (b := b) (by omega),
    ofNat_eq_of_toNat (b := c) (by omega), ofNat_eq_of_toNat (b := d) (by omega)]

/-! ## Texts -/

theorem encode_cons (c : Char) (t : Text) : encode (c :: t) = encodeChar c ++ encode t := rfl

@[simp] theorem encode_append (s t : Text) : encode (s ++ t) = encode s ++ encode t :=
  List.flatMap_append

/-- Characters read from a byte sequence without ill-formed runs are written as it. -/
theorem encode_of_scan {bytes : Bytes} {t : Text} (h : scan bytes = t.map some) :
    encode t = bytes := by
  -- where a run is ill-formed nothing is read, so only the four well-formed cases are left
  fun_induction scan bytes generalizing t with
  | case1 =>
    cases t with
    | nil => rfl
    | cons c t => simp at h
  | case2 a rest hw ih =>
    cases t with
    | nil => simp at h
    | cons c t =>
      simp only [List.map_cons, List.cons.injEq, Option.some.injEq] at h
      rw [encode_cons, ← h.1, encodeChar_one hw, ih h.2]
      rfl
  | case4 a hw b rest hb ih =>
    cases t with
    | nil => simp at h
    | cons c t =>
      simp only [List.map_cons, List.cons.injEq, Option.some.injEq] at h
      rw [encode_cons, ← h.1, encodeChar_two hw hb, ih h.2]
      rfl
  | case8 a hw b hb c rest hc ih =>
    cases t with
    | nil => simp at h
    | cons x t =>
      simp only [List.map_cons, List.cons.injEq, Option.some.injEq] at h
      rw [encode_cons, ← h.1, encodeChar_three hw hb hc, ih h.2]
      rfl
  | case14 a hw b hb c hc d rest hd ih =>
    cases t with
    | nil => simp at h
    | cons x t =>
      simp only [List.map_cons, List.cons.injEq, Option.some.injEq] at h
      rw [encode_cons, ← h.1, encodeChar_four hw hb hc hd, ih h.2]
      rfl
  | _ => cases t <;> simp at h

/-- What is read is written back. -/
theorem encode_of_decode {bytes : Bytes} {t : Text} (h : decode bytes = some t) :
    encode t = bytes := by
  refine encode_of_scan ?_
  unfold decode at h
  generalize scan bytes = found at h
  induction found generalizing t with
  | nil =>
    cases h
    rfl
  | cons c found ih =>
    cases c with
    | none => simp [List.mapM_cons] at h
    | some c =>
      rw [List.mapM_cons] at h
      cases hrest : found.mapM id with
      | none => simp [hrest] at h
      | some rest =>
        simp only [hrest, id_eq, Option.pure_def, Option.bind_eq_bind, Option.bind_some,
          Option.some.injEq] at h
        subst h
        rw [ih hrest]
        rfl

/-- Different texts have different bytes. -/
theorem encode_injective {s t : Text} (h : encode s = encode t) : s = t := by
  have hdecode := decode_encode s
  rw [h, decode_encode] at hdecode
  exact (Option.some.inj hdecode).symm

/-- Only the empty text has no bytes. -/
theorem encode_eq_nil_iff {t : Text} : encode t = [] ↔ t = [] :=
  ⟨fun h => encode_injective h, fun h => h ▸ rfl⟩

/-! ## Slashes -/

/-- Bytes of a character below 128 are the character itself. -/
theorem eq_of_mem_encodeChar {c : Char} {b : UInt8} (h : b ∈ encodeChar c)
    (hb : b.toNat < 0x80) : b.toNat = c.toNat := by
  have hc : c.toNat < 0x110000 := by
    rcases c.valid with h | h
    · exact Nat.lt_of_lt_of_le h (by decide)
    · exact h.2
  have hlead : ∀ {n : Nat}, n < 256 → b = .ofNat n → n < 0x80 := fun hn hbn => by
    rwa [hbn, toNat_ofNat_of_lt hn] at hb
  unfold encodeChar at h
  generalize c.toNat = n at *
  dsimp only at h
  split at h
  · rw [List.mem_singleton.1 h, toNat_ofNat_of_lt (by omega)]
  · -- every byte of a longer form has its highest bit set
    exfalso
    repeat' split at h
    all_goals simp only [List.mem_cons, List.not_mem_nil, or_false] at h
    · rcases h with h | h <;> have := hlead (by omega) h <;> omega
    · rcases h with h | h | h <;> have := hlead (by omega) h <;> omega
    · rcases h with h | h | h | h <;> have := hlead (by omega) h <;> omega

/-- A character has the byte of a slash exactly if it is one. -/
theorem slash_mem_encodeChar_iff {c : Char} : 0x2F ∈ encodeChar c ↔ c = '/' := by
  constructor
  · intro h
    have hslash : c.toNat = '/'.toNat := (eq_of_mem_encodeChar h (by decide)).symm
    rw [← Char.ofNat_toNat c, hslash, Char.ofNat_toNat]
  · rintro rfl
    decide

/-- A text has the byte of a slash exactly if it has a slash. -/
theorem slash_mem_encode_iff {t : Text} : 0x2F ∈ encode t ↔ '/' ∈ t := by
  rw [encode, List.mem_flatMap]
  constructor
  · rintro ⟨c, hc, hslash⟩
    rwa [slash_mem_encodeChar_iff.1 hslash] at hc
  · intro h
    exact ⟨'/', h, slash_mem_encodeChar_iff.2 rfl⟩

end InterfacePackage.Utf8
