import InterfacePackage.Text.Basic

/-!
# UTF-8

Texts as bytes. `scan` reads bytes as a sequence of characters and of ill-formed places, one for
each longest run of bytes that starts a character and does not end it. Reading strictly admits no
such place, reading for display puts U+FFFD there. Main statement: `decode_encode`.
-/

namespace InterfacePackage

/-- A sequence of bytes. -/
abbrev Bytes := List UInt8

namespace Utf8

/-- The one to four bytes of a character. -/
def encodeChar (c : Char) : Bytes :=
  let n := c.toNat
  if n < 0x80 then [.ofNat n]
  else if n < 0x800 then [.ofNat (0xC0 + n / 64), .ofNat (0x80 + n % 64)]
  else if n < 0x10000 then
    [.ofNat (0xE0 + n / 4096), .ofNat (0x80 + n / 64 % 64), .ofNat (0x80 + n % 64)]
  else
    [.ofNat (0xF0 + n / 262144), .ofNat (0x80 + n / 4096 % 64), .ofNat (0x80 + n / 64 % 64),
      .ofNat (0x80 + n % 64)]

/-- The bytes of a text. -/
def encode (t : Text) : Bytes := t.flatMap encodeChar

/-- Whether a byte may continue a character. -/
def isTail (b : UInt8) : Bool := 0x80 ≤ b.toNat && b.toNat < 0xC0

/-- Whether a byte may come second after the first byte `lead`. Overlong forms, surrogates and
numbers beyond U+10FFFF are ruled out here. -/
def isSecond (lead b : UInt8) : Bool :=
  if lead.toNat = 0xE0 then 0xA0 ≤ b.toNat && b.toNat < 0xC0
  else if lead.toNat = 0xED then 0x80 ≤ b.toNat && b.toNat < 0xA0
  else if lead.toNat = 0xF0 then 0x90 ≤ b.toNat && b.toNat < 0xC0
  else if lead.toNat = 0xF4 then 0x80 ≤ b.toNat && b.toNat < 0x90
  else isTail b

/-- How many bytes a character has that starts with this byte; zero when none does. -/
def width (lead : UInt8) : Nat :=
  if lead.toNat < 0x80 then 1
  else if lead.toNat < 0xC2 then 0
  else if lead.toNat < 0xE0 then 2
  else if lead.toNat < 0xF0 then 3
  else if lead.toNat < 0xF5 then 4
  else 0

/-- The payload of a byte that continues a character. -/
def low (b : UInt8) : Nat := b.toNat % 64

/-- The characters of a byte sequence, with nothing in the place of each ill-formed run. -/
def scan : Bytes → List (Option Char)
  | [] => []
  | a :: rest =>
    match width a with
    | 1 => some (Char.ofNat a.toNat) :: scan rest
    | 2 => match rest with
      | [] => [none]
      | b :: rest₁ =>
        if isTail b then some (Char.ofNat (a.toNat % 32 * 64 + low b)) :: scan rest₁
        else none :: scan (b :: rest₁)
    | 3 => match rest with
      | [] => [none]
      | b :: rest₁ =>
        if isSecond a b then match rest₁ with
          | [] => [none]
          | c :: rest₂ =>
            if isTail c then
              some (Char.ofNat (a.toNat % 16 * 4096 + low b * 64 + low c)) :: scan rest₂
            else none :: scan (c :: rest₂)
        else none :: scan (b :: rest₁)
    | 4 => match rest with
      | [] => [none]
      | b :: rest₁ =>
        if isSecond a b then match rest₁ with
          | [] => [none]
          | c :: rest₂ =>
            if isTail c then match rest₂ with
              | [] => [none]
              | d :: rest₃ =>
                if isTail d then
                  some (Char.ofNat (a.toNat % 8 * 262144 + low b * 4096 + low c * 64 + low d))
                    :: scan rest₃
                else none :: scan (d :: rest₃)
            else none :: scan (c :: rest₂)
        else none :: scan (b :: rest₁)
    | _ => none :: scan rest

/-- The text of a byte sequence; nothing when it is ill-formed anywhere. -/
def decode (bytes : Bytes) : Option Text := (scan bytes).mapM id

/-- The text of a byte sequence with U+FFFD for each ill-formed run. -/
def display (bytes : Bytes) : Text := (scan bytes).map (·.getD (Char.ofNat 0xFFFD))

/-- A number below 256 survives as a byte. -/
theorem toNat_ofNat_of_lt {k : Nat} (h : k < 256) : (UInt8.ofNat k).toNat = k := by
  simp [Nat.mod_eq_of_lt h]

/-- A byte made from a six-bit payload continues a character. -/
theorem isTail_ofNat {k : Nat} (h : k < 64) : isTail (.ofNat (0x80 + k)) = true := by
  simp only [isTail, toNat_ofNat_of_lt (show 0x80 + k < 256 by omega), Bool.and_eq_true,
    decide_eq_true_eq]
  omega

/-- A byte made from a six-bit payload gives it back. -/
theorem low_ofNat {k : Nat} (h : k < 64) : low (.ofNat (0x80 + k)) = k := by
  rw [low, toNat_ofNat_of_lt (by omega)]
  omega

/-- A character's bytes read back as the character. -/
theorem scan_encodeChar (c : Char) (rest : Bytes) :
    scan (encodeChar c ++ rest) = some c :: scan rest := by
  have hc : c.toNat < 0xD800 ∨ 0xDFFF < c.toNat ∧ c.toNat < 0x110000 := c.valid
  have hof : Char.ofNat c.toNat = c := Char.ofNat_toNat c
  unfold encodeChar
  generalize c.toNat = n at *
  by_cases h1 : n < 0x80
  · have e0 := toNat_ofNat_of_lt (show n < 256 by omega)
    have w : width (.ofNat n) = 1 := by simp only [width, e0]; rw [if_pos h1]
    simp only [if_pos h1, List.cons_append, List.nil_append]
    rw [scan.eq_def]
    simp only [w, e0, hof]
  by_cases h2 : n < 0x800
  · have e0 := toNat_ofNat_of_lt (show 0xC0 + n / 64 < 256 by omega)
    have w : width (.ofNat (0xC0 + n / 64)) = 2 := by
      simp only [width, e0]
      rw [if_neg (by omega), if_neg (by omega), if_pos (by omega)]
    simp only [if_neg h1, if_pos h2, List.cons_append, List.nil_append]
    rw [scan.eq_def]
    simp only [w, isTail_ofNat (Nat.mod_lt n (by decide : 0 < 64)),
      low_ofNat (Nat.mod_lt n (by decide : 0 < 64)), e0, if_true]
    rw [show (0xC0 + n / 64) % 32 * 64 + n % 64 = n by omega, hof]
  by_cases h3 : n < 0x10000
  · have e0 := toNat_ofNat_of_lt (show 0xE0 + n / 4096 < 256 by omega)
    have e1 := toNat_ofNat_of_lt (show 0x80 + n / 64 % 64 < 256 by omega)
    have w : width (.ofNat (0xE0 + n / 4096)) = 3 := by
      simp only [width, e0]
      rw [if_neg (by omega), if_neg (by omega), if_neg (by omega), if_pos (by omega)]
    have second : isSecond (.ofNat (0xE0 + n / 4096)) (.ofNat (0x80 + n / 64 % 64)) = true := by
      simp only [isSecond, isTail, e0, e1]
      split
      · simp only [Bool.and_eq_true, decide_eq_true_eq]; omega
      split
      · simp only [Bool.and_eq_true, decide_eq_true_eq]; omega
      rw [if_neg (by omega), if_neg (by omega)]
      simp only [Bool.and_eq_true, decide_eq_true_eq]; omega
    simp only [if_neg h1, if_neg h2, if_pos h3, List.cons_append, List.nil_append]
    rw [scan.eq_def]
    simp only [w, second, isTail_ofNat (Nat.mod_lt n (by decide : 0 < 64)),
      low_ofNat (Nat.mod_lt n (by decide : 0 < 64)),
      low_ofNat (Nat.mod_lt (n / 64) (by decide : 0 < 64)), e0, if_true]
    rw [show (0xE0 + n / 4096) % 16 * 4096 + n / 64 % 64 * 64 + n % 64 = n by omega, hof]
  · have e0 := toNat_ofNat_of_lt (show 0xF0 + n / 262144 < 256 by omega)
    have e1 := toNat_ofNat_of_lt (show 0x80 + n / 4096 % 64 < 256 by omega)
    have w : width (.ofNat (0xF0 + n / 262144)) = 4 := by
      simp only [width, e0]
      rw [if_neg (by omega), if_neg (by omega), if_neg (by omega), if_neg (by omega),
        if_pos (by omega)]
    have second : isSecond (.ofNat (0xF0 + n / 262144)) (.ofNat (0x80 + n / 4096 % 64)) = true := by
      simp only [isSecond, isTail, e0, e1]
      rw [if_neg (by omega), if_neg (by omega)]
      split
      · simp only [Bool.and_eq_true, decide_eq_true_eq]; omega
      split
      · simp only [Bool.and_eq_true, decide_eq_true_eq]; omega
      simp only [Bool.and_eq_true, decide_eq_true_eq]; omega
    simp only [if_neg h1, if_neg h2, if_neg h3, List.cons_append, List.nil_append]
    rw [scan.eq_def]
    simp only [w, second, isTail_ofNat (Nat.mod_lt n (by decide : 0 < 64)),
      isTail_ofNat (Nat.mod_lt (n / 64) (by decide : 0 < 64)),
      low_ofNat (Nat.mod_lt n (by decide : 0 < 64)),
      low_ofNat (Nat.mod_lt (n / 64) (by decide : 0 < 64)),
      low_ofNat (Nat.mod_lt (n / 4096) (by decide : 0 < 64)), e0, if_true]
    rw [show (0xF0 + n / 262144) % 8 * 262144 + n / 4096 % 64 * 4096 + n / 64 % 64 * 64 + n % 64 = n
      by omega, hof]

/-- A text's bytes read back as its characters. -/
theorem scan_encode (t : Text) : scan (encode t) = t.map some := by
  induction t with
  | nil => rfl
  | cons c t ih =>
    rw [encode, List.flatMap_cons, scan_encodeChar, List.map_cons, ← ih, encode]

/-- What is written is read back. -/
theorem decode_encode (t : Text) : decode (encode t) = some t := by
  rw [decode, scan_encode]
  induction t with
  | nil => rfl
  | cons c t ih => simp [List.mapM_cons, ih]

end Utf8

end InterfacePackage
