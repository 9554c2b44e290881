import InterfacePackage.Json.Number

/-!
# Numbers are read as they are written

A number in the form of the grammar is read from any text that spells it, as long as nothing follows
that could belong to it. The mark of an exponent may be of either case, and its sign may be a plus.
Main statement: `Numeral.read_of_spells`.
-/

namespace InterfacePackage.Json

/-- What may follow a number: the end, or what cannot belong to it. -/
def IsDelimited (t : Text) : Prop :=
  ∀ c, t.head? = some c → (c.isDigit || c = '.' || c = 'e' || c = 'E') = false

namespace Numeral

variable {ds rest : Text} (atEnd : Problem)

/-- Digits, at least one. -/
def IsDigits (ds : Text) : Prop := ds ≠ [] ∧ ∀ c ∈ ds, c.isDigit = true

/-- A number in the form of the grammar. -/
structure IsGrammatical (n : Numeral) : Prop where
  whole : IsDigits n.whole
  /-- A zero is not followed by another digit. -/
  zero : n.whole.head? = some '0' → n.whole = ['0']
  fraction : ∀ ds, n.fraction = some ds → IsDigits ds
  exponent : ∀ e, n.exponent = some e → IsDigits e.digits

/-- No digit is next. -/
def NoDigit (t : Text) : Prop := ∀ c, t.head? = some c → c.isDigit = false

/-- Digits are read up to the first other character. -/
theorem someDigits_append (hds : IsDigits ds) (hrest : NoDigit rest) :
    someDigits atEnd (ds ++ rest) = .ok (ds, rest) := by
  obtain ⟨hne, hall⟩ := hds
  have hspan : spanDigits (ds ++ rest) = (ds, rest) := by
    rw [spanDigits, List.takeWhile_append_of_pos hall, List.dropWhile_append_of_pos hall]
    cases rest with
    | nil => simp
    | cons c rest =>
      have hc := hrest c rfl
      rw [List.takeWhile_cons_of_neg (by simp [hc]), List.dropWhile_cons_of_neg (by simp [hc]),
        List.append_nil]
  cases ds with
  | nil => exact absurd rfl hne
  | cons c ds =>
    rw [List.cons_append] at hspan ⊢
    rw [someDigits, if_pos (hall c List.mem_cons_self), hspan]

/-- So are the digits before the point. -/
theorem readWhole_append (hds : IsDigits ds) (hzero : ds.head? = some '0' → ds = ['0'])
    (hrest : NoDigit rest) : readWhole atEnd (ds ++ rest) = .ok (ds, rest) := by
  unfold readWhole
  split
  · rename_i c front heq
    cases ds with
    | nil => exact absurd rfl hds.1
    | cons d ds =>
      rw [List.cons_append] at heq
      obtain ⟨rfl, hfront⟩ := List.cons.inj heq
      have hsingle := hzero rfl
      cases hsingle
      rw [List.nil_append] at hfront
      rw [if_neg (by simp [hrest c (by rw [hfront]; rfl)]), hfront]
  · exact someDigits_append atEnd hds hrest

/-- The written form of a fraction, if there is one. -/
def fractionText : Option Text → Text
  | some ds => '.' :: ds
  | none => []

/-- A text that spells an exponent, or none. -/
inductive SpellsExponent : Text → Option Exponent → Prop where
  | none : SpellsExponent [] none
  | unsigned {mark : Char} {ds : Text} (hmark : mark = 'e' ∨ mark = 'E') (hds : IsDigits ds) :
      SpellsExponent (mark :: ds) (some ⟨false, ds⟩)
  | signed {mark sign : Char} {ds : Text} (hmark : mark = 'e' ∨ mark = 'E')
      (hsign : sign = '+' ∨ sign = '-') (hds : IsDigits ds) :
      SpellsExponent (mark :: sign :: ds) (some ⟨sign = '-', ds⟩)

/-- A text that spells a number. -/
inductive Spells : Text → Numeral → Prop where
  | mk {n : Numeral} {e : Text} (hwhole : IsDigits n.whole)
      (hzero : n.whole.head? = some '0' → n.whole = ['0'])
      (hfraction : ∀ ds, n.fraction = some ds → IsDigits ds)
      (hexponent : SpellsExponent e n.exponent) :
      Spells ((if n.negative then ['-'] else []) ++ (n.whole ++ (fractionText n.fraction ++ e))) n

/-- A number in the form of the grammar is spelled by what is written for it. -/
theorem spells_text {n : Numeral} (h : n.IsGrammatical) : Spells n.text n := by
  obtain ⟨negative, whole, fraction, exponent⟩ := n
  have hspells : ∀ e, SpellsExponent e exponent → Spells ((if negative then ['-'] else [])
      ++ (whole ++ (fractionText fraction ++ e))) ⟨negative, whole, fraction, exponent⟩ :=
    fun e he => .mk h.whole h.zero h.fraction he
  cases exponent with
  | none =>
    have htext := hspells [] .none
    cases fraction <;> simpa [text, fractionText] using htext
  | some e =>
    have hds : IsDigits e.digits := h.exponent _ rfl
    obtain ⟨sign, ds⟩ := e
    cases sign with
    | true =>
      have htext := hspells _ (.signed (.inl rfl) (.inr rfl) hds)
      cases fraction <;> simpa [text, fractionText] using htext
    | false =>
      have htext := hspells _ (.unsigned (.inl rfl) hds)
      cases fraction <;> simpa [text, fractionText] using htext

/-- A fraction is read, or found missing. -/
theorem readFraction_append {fraction : Option Text}
    (hfraction : ∀ ds, fraction = some ds → IsDigits ds)
    (hrest : ∀ c, rest.head? = some c → c.isDigit = false ∧ c ≠ '.') :
    readFraction atEnd (fractionText fraction ++ rest) = .ok (fraction, rest) := by
  cases fraction with
  | some ds =>
    rw [fractionText, List.cons_append, readFraction,
      someDigits_append atEnd (hfraction ds rfl) fun c hc => (hrest c hc).1]
    rfl
  | none =>
    rw [fractionText, List.nil_append]
    unfold readFraction
    split
    · exact absurd rfl (hrest '.' rfl).2
    · rfl

/-- Nothing that may follow a number is a digit. -/
theorem noDigit_of_isDelimited (h : IsDelimited rest) : NoDigit rest := by
  intro c hc
  have hdelimited := h c hc
  simp only [Bool.or_eq_false_iff] at hdelimited
  exact hdelimited.1.1.1

/-- An exponent is read, or found missing. -/
theorem readExponent_append {e : Text} {exponent : Option Exponent}
    (hexponent : SpellsExponent e exponent) (hrest : IsDelimited rest) :
    readExponent atEnd (e ++ rest) = .ok (exponent, rest) := by
  cases hexponent with
  | @unsigned mark ds hmark hds =>
    obtain ⟨d, back, rfl⟩ := List.exists_cons_of_ne_nil hds.1
    have hdigits := someDigits_append atEnd hds (noDigit_of_isDelimited hrest)
    have hd := hds.2 d List.mem_cons_self
    have hplus : d ≠ '+' := fun h => by simp [h] at hd
    have hminus : d ≠ '-' := fun h => by simp [h] at hd
    rw [List.cons_append] at hdigits
    rw [List.cons_append, List.cons_append, readExponent, if_pos hmark, hdigits]
    · rfl
    · exact fun _ heq => hplus (List.cons.inj heq).1
    · exact fun _ heq => hminus (List.cons.inj heq).1
  | @signed mark sign ds hmark hsign hds =>
    have hdigits := someDigits_append atEnd hds (noDigit_of_isDelimited hrest)
    rcases hsign with rfl | rfl
    · show (if mark = 'e' ∨ mark = 'E' then (someDigits atEnd (ds ++ rest)).map _ else _) = _
      rw [if_pos hmark, hdigits]
      rfl
    · show (if mark = 'e' ∨ mark = 'E' then (someDigits atEnd (ds ++ rest)).map _ else _) = _
      rw [if_pos hmark, hdigits]
      rfl
  | none =>
    cases rest with
    | nil => rfl
    | cons c rest =>
      have hc := hrest c rfl
      simp only [Bool.or_eq_false_iff, decide_eq_false_iff_not] at hc
      show readExponent atEnd (c :: rest) = _
      unfold readExponent
      exact if_neg (not_or.2 ⟨hc.1.2, hc.2⟩)

/-- What follows the fraction is neither a digit nor a point. -/
theorem head_exponent_append {e : Text} {exponent : Option Exponent}
    (hexponent : SpellsExponent e exponent) (hrest : IsDelimited rest) (c : Char)
    (hc : (e ++ rest).head? = some c) : c.isDigit = false ∧ c ≠ '.' := by
  cases hexponent with
  | unsigned hmark _ | signed hmark _ _ =>
    cases hc
    rcases hmark with rfl | rfl <;> decide
  | none =>
    have hdelimited := hrest c hc
    simp only [Bool.or_eq_false_iff, decide_eq_false_iff_not] at hdelimited
    exact hdelimited.1.1

/-- What follows the digits before the point is no digit. -/
theorem noDigit_fractionText_append (fraction : Option Text) {e : Text} {exponent : Option Exponent}
    (hexponent : SpellsExponent e exponent) (hrest : IsDelimited rest) :
    NoDigit (fractionText fraction ++ (e ++ rest)) := by
  intro c hc
  cases fraction with
  | some ds =>
    cases hc
    decide
  | none => exact (head_exponent_append hexponent hrest c hc).1

/-- A number is read from any text that spells it. -/
theorem read_of_spells {t : Text} {n : Numeral} (h : Spells t n) (hrest : IsDelimited rest) :
    read atEnd (t ++ rest) = .ok (n, rest) := by
  cases h with
  | @mk n e hwhole hzero hfraction hexponent =>
    have hreadExponent := readExponent_append atEnd hexponent hrest
    have hreadFraction := readFraction_append atEnd hfraction (head_exponent_append hexponent hrest)
    have hreadWhole := readWhole_append atEnd hwhole hzero
      (noDigit_fractionText_append n.fraction hexponent hrest)
    obtain ⟨negative, whole, fraction, exponent⟩ := n
    obtain ⟨d, back, rfl⟩ := List.exists_cons_of_ne_nil hwhole.1
    have hsign : d ≠ '-' := fun heq => by simpa [heq] using hwhole.2 d List.mem_cons_self
    simp only [List.append_assoc]
    cases negative with
    | true =>
      unfold read
      simp only [if_true, List.singleton_append, bind, Except.bind, hreadWhole, hreadFraction,
        hreadExponent]
      rfl
    | false =>
      simp only [Bool.false_eq_true, if_false, List.nil_append]
      rw [read]
      · simp only [bind, Except.bind, hreadWhole, hreadFraction, hreadExponent]
        rfl
      · exact fun _ heq => hsign (List.cons.inj heq).1

/-- The text of a number starts with a sign or a digit. -/
theorem exists_eq_cons_of_spells {t : Text} {n : Numeral} (h : Spells t n) :
    ∃ c rest, t = c :: rest ∧ (c = '-' || c.isDigit) = true := by
  cases h with
  | @mk n e hwhole _ _ _ =>
    obtain ⟨negative, whole, fraction, exponent⟩ := n
    obtain ⟨d, back, rfl⟩ := List.exists_cons_of_ne_nil hwhole.1
    cases negative with
    | true => exact ⟨'-', _, rfl, rfl⟩
    | false => exact ⟨d, _, rfl, by simp [hwhole.2 d List.mem_cons_self]⟩

end Numeral

end InterfacePackage.Json
