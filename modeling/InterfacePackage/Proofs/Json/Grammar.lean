import InterfacePackage.Json.Value
import InterfacePackage.Proofs.Json.Reading

/-!
# Texts that spell a value

The grammar of JSON as a relation between a text and the value it stands for, with blanks wherever
they may stand, strings with any of the escapes, and numbers with either mark and any sign of an
exponent. A text with an escape that stands for half a pair only spells nothing. Whatever spells a
value is parsed as that value. Main statement: `parse_of_isDocument`.
-/

namespace InterfacePackage.Json

variable {α β σ : Type} {t v w : Text} {x : Json}

/-! ## Strings -/

namespace Quoted

/-- What stands between quotes for a string. -/
inductive Spells : Text → Text → Prop where
  | nil : Spells [] []
  | plain {c : Char} {w s : Text} (hcontrol : ¬ c.toNat < 0x20) (hquote : c ≠ '"')
      (hslash : c ≠ '\\') (h : Spells w s) : Spells (c :: w) (c :: s)
  | letter {letter c : Char} {w s : Text} (hletter : simpleEscape letter = some c)
      (h : Spells w s) : Spells ('\\' :: letter :: w) (c :: s)
  | number {a b c d : Char} {n : Nat} {w s : Text} (hn : hexNumber a b c d = some n)
      (hhigh : isHigh n = false) (hlow : isLow n = false) (h : Spells w s) :
      Spells ('\\' :: 'u' :: a :: b :: c :: d :: w) (Char.ofNat n :: s)
  | pair {a b c d a₂ b₂ c₂ d₂ : Char} {n m : Nat} {w s : Text} (hn : hexNumber a b c d = some n)
      (hhigh : isHigh n = true) (hm : hexNumber a₂ b₂ c₂ d₂ = some m) (hlow : isLow m = true)
      (h : Spells w s) :
      Spells ('\\' :: 'u' :: a :: b :: c :: d :: '\\' :: 'u' :: a₂ :: b₂ :: c₂ :: d₂ :: w)
        (Char.ofNat (0x10000 + (n - 0xD800) * 1024 + (m - 0xDC00)) :: s)

/-- The first half of a pair is not the second half of one. -/
theorem isLow_of_isHigh {n : Nat} (h : isHigh n = true) : isLow n = false := by
  simp only [isHigh, isLow, Bool.and_eq_true, decide_eq_true_eq, Bool.and_eq_false_iff,
    decide_eq_false_iff_not] at h ⊢
  omega

/-- A character that need not be escaped is written as it is. -/
theorem escapeLetter?_eq_none {c : Char} (hcontrol : ¬ c.toNat < 0x20) (hquote : c ≠ '"')
    (hslash : c ≠ '\\') : escapeLetter? c = none := by
  unfold escapeLetter?
  split
  · exact absurd rfl hquote
  · exact absurd rfl hslash
  · exact absurd (by decide) hcontrol
  · exact absurd (by decide) hcontrol
  · exact absurd (by decide) hcontrol
  · exact absurd (by decide) hcontrol
  · exact absurd (by decide) hcontrol
  · rfl

/-- A string is read from whatever stands for it between quotes. -/
theorem isRead_of_spells {w s : Text} (h : Spells w s) : IsRead w s := by
  intro rest
  induction h with
  | nil =>
    rw [List.nil_append, read.eq_def]
    rfl
  | plain hcontrol hquote hslash h ih =>
    rw [List.cons_append, read_cons (escapeLetter?_eq_none hcontrol hquote hslash) hcontrol, ih]
    rfl
  | @letter letter c w s hletter h ih =>
    have hu : letter ≠ 'u' := by
      rintro rfl
      cases hletter
    rw [List.cons_append, List.cons_append, read_letter hletter hu, ih]
    rfl
  | number hn hhigh hlow h ih =>
    simp only [List.cons_append]
    rw [read.eq_def]
    simp only [hn, hhigh, hlow, ih, Bool.false_eq_true, if_false]
    rfl
  | pair hn hhigh hm hlow h ih =>
    simp only [List.cons_append]
    rw [read.eq_def]
    simp only [hn, hhigh, isLow_of_isHigh hhigh, hm, hlow, ih, Bool.false_eq_true, if_false,
      if_true]
    rfl

/-- What is written for a character stands for it. -/
theorem Spells.escape {s : Text} (c : Char) (h : Spells w s) : Spells (escape c ++ w) (c :: s) := by
  unfold Quoted.escape
  split
  · rename_i letter hletter
    exact .letter (simpleEscape_of_escapeLetter? hletter) h
  · rename_i hletter
    split
    · rename_i hcontrol
      have hn := hexNumber_hexDigit c.toNat hcontrol
      have hhigh : isHigh c.toNat = false := by
        simp only [isHigh, Bool.and_eq_false_iff, decide_eq_false_iff_not]
        omega
      have hlow : isLow c.toNat = false := by
        simp only [isLow, Bool.and_eq_false_iff, decide_eq_false_iff_not]
        omega
      have hspells := Spells.number hn hhigh hlow h
      rwa [Char.ofNat_toNat] at hspells
    · rename_i hcontrol
      refine .plain hcontrol ?_ ?_ h
      · rintro rfl
        cases hletter
      · rintro rfl
        cases hletter

/-- What is written for a string stands for it. -/
theorem spells_flatMap_escape (s : Text) : Spells (s.flatMap Quoted.escape) s := by
  induction s with
  | nil => exact .nil
  | cons c s ih =>
    rw [List.flatMap_cons]
    exact ih.escape c

end Quoted

/-! ## Values -/

/-- A member of an object: its key between quotes, a colon, and its value. -/
inductive Member (value : Text → Json → Prop) : Text → Text × Json → Prop where
  | mk {k key b b' w : Text} {x : Json} (hk : Quoted.Spells k key) (hb : IsBlanks b)
      (hb' : IsBlanks b') (hw : value w x) :
      Member value ('"' :: (k ++ '"' :: (b ++ ':' :: (b' ++ w)))) (key, x)

/-- A text that spells a value, from its first token to its last. -/
inductive Spells : Text → Json → Prop where
  | null : Spells "null".toList .null
  | yes : Spells "true".toList (.boolean true)
  | no : Spells "false".toList (.boolean false)
  | number {t : Text} {n : Numeral} (h : Numeral.Spells t n) : Spells t (.number n)
  | string {w s : Text} (h : Quoted.Spells w s) : Spells ('"' :: (w ++ ['"'])) (.string s)
  | list {v : Text} {xs : List Json} (h : Enclosed Spells '[' ']' v xs) : Spells v (.list xs)
  | object {v : Text} {ms : List (Text × Json)} (h : Enclosed (Member Spells) '\x7b' '\x7d' v ms) :
      Spells v (.object ms)

/-- A text that holds a value and nothing else. -/
def IsDocument (t : Text) (x : Json) : Prop :=
  ∃ b v b', t = b ++ (v ++ b') ∧ IsBlanks b ∧ Spells v x ∧ IsBlanks b'

/-- What a value starts with, by its kind. -/
def IsFirst (c : Char) : Json → Prop
  | .null => c = 'n'
  | .boolean true => c = 't'
  | .boolean false => c = 'f'
  | .number _ => (c = '-' || c.isDigit) = true
  | .string _ => c = '"'
  | .list _ => c = '['
  | .object _ => c = '\x7b'

/-- No other token starts with a sign or a digit. -/
theorem ne_of_starts_number {c d : Char} (hc : (c = '-' || c.isDigit) = true)
    (hd : (d = '-' || d.isDigit) = false) : c ≠ d := by
  rintro rfl
  rw [hc] at hd
  cases hd

/-- So no blank does. -/
theorem isBlank_of_starts_number {c : Char} (hc : (c = '-' || c.isDigit) = true) :
    isBlank c = false := by
  refine Bool.eq_false_iff.2 fun hblank => ?_
  simp only [isBlank, Bool.or_eq_true, decide_eq_true_eq] at hblank
  rcases hblank with ((rfl | rfl) | rfl) | rfl <;> cases hc

/-- What is enclosed starts with the opening bracket. -/
theorem Enclosed.exists_eq_cons {part : Text → α → Prop} {opening closing : Char} {xs : List α}
    (h : Enclosed part opening closing v xs) : ∃ rest, v = opening :: rest := by
  cases h with
  | empty hb => exact ⟨_, rfl⟩
  | parts hb hp hothers => exact ⟨_, rfl⟩

/-- A text that spells a value starts as one of its kind. -/
theorem Spells.exists_isFirst (h : Spells v x) : ∃ c rest, v = c :: rest ∧ IsFirst c x := by
  cases h with
  | null | yes | no | string _ => exact ⟨_, _, rfl, rfl⟩
  | number hn => exact Numeral.exists_eq_cons_of_spells hn
  | list hxs =>
    obtain ⟨rest, hv⟩ := hxs.exists_eq_cons
    exact ⟨_, rest, hv, rfl⟩
  | object hms =>
    obtain ⟨rest, hv⟩ := hms.exists_eq_cons
    exact ⟨_, rest, hv, rfl⟩

/-- No value starts with a blank. -/
theorem IsFirst.isBlank_eq_false {c : Char} (h : IsFirst c x) : isBlank c = false := by
  cases x with
  | null | string _ | list _ | object _ => rw [h]; rfl
  | boolean b =>
    cases b <;> rw [h] <;> rfl
  | number n => exact isBlank_of_starts_number h

/-- Nor with a closing bracket. -/
theorem IsFirst.ne_bracket {c : Char} (h : IsFirst c x) : c ≠ ']' := by
  cases x with
  | null | string _ | list _ | object _ => rw [h]; decide
  | boolean b =>
    cases b <;> rw [h] <;> decide
  | number n => exact ne_of_starts_number h rfl

/-- A text that spells a value starts with a token. -/
theorem Spells.isToken (h : Spells v x) : IsToken v := by
  obtain ⟨c, rest, rfl, hc⟩ := h.exists_isFirst
  exact ⟨c, rest, rfl, hc.isBlank_eq_false, hc.ne_bracket⟩

/-! ## Members -/

/-- The members of an object are taken one after another, if the text of each value is answered as
`step` takes the value. -/
theorem exists_taken {member : σ → Text → Reader σ} (step : σ → Text × Json → Option σ)
    {ms : List (Text × Json)} (h : Enclosed (Member Spells) '\x7b' '\x7d' v ms)
    (hmember : ∀ acc key w x b, Spells w x → w.length < v.length → IsBlanks b →
      Answers (member acc key) (':' :: (b ++ w)) (step acc (key, x))) (acc : σ) :
    ∃ kvs, Enclosed Keyed '\x7b' '\x7d' v kvs ∧ Taken member kvs acc (ms.foldlM step acc) := by
  obtain ⟨kvs, hkvs, hrelated⟩ := h.relabel Keyed
    (fun m kv => ∀ acc, Answers (member acc kv.1) kv.2 (step acc m)) (by
      rintro p m ⟨hk, hb, hb', hw⟩ hlength
      simp only [List.length_append, List.length_cons] at hlength
      refine ⟨_, .mk (Quoted.isRead_of_spells hk) hb, fun acc => ?_⟩
      exact hmember acc _ _ _ _ hw (by omega) hb')
  refine ⟨kvs, hkvs, ?_⟩
  clear h hkvs hmember
  induction hrelated generalizing acc with
  | nil => exact .nil acc
  | @cons m kv ms kvs hm hms ih =>
    have hanswers := hm acc
    rw [List.foldlM_cons]
    cases hstep : step acc m with
    | none =>
      rw [hstep] at hanswers
      exact .stop hanswers
    | some next =>
      rw [hstep] at hanswers
      exact .cons hanswers (ih next)

/-! ## Values of any kind -/

/-- A number is read as a value. -/
theorem reads_number (fuel : Nat) {n : Numeral} (h : Numeral.Spells v n) :
    Reads (Reader.value (fuel + 1)) v (.number n) := by
  intro blanks rest hblanks hrest
  have hread := Numeral.read_of_spells (.ended .value) h hrest
  obtain ⟨c, back, rfl, hc⟩ := Numeral.exists_eq_cons_of_spells h
  -- no other kind of value starts like this
  have hnull : c ≠ 'n' := ne_of_starts_number hc rfl
  have htrue : c ≠ 't' := ne_of_starts_number hc rfl
  have hfalse : c ≠ 'f' := ne_of_starts_number hc rfl
  have hquote : c ≠ '"' := ne_of_starts_number hc rfl
  have hbracket : c ≠ '[' := ne_of_starts_number hc rfl
  have hbrace : c ≠ '\x7b' := ne_of_starts_number hc rfl
  rw [Reader.value, List.cons_append,
    Reader.bind_of_ok (Reader.peek_cons hblanks (isBlank_of_starts_number hc) _)]
  simp only
  rw [if_pos hc]
  exact Reader.bind_of_ok hread

/-- A string is read as a value. -/
theorem reads_quoted (fuel : Nat) {w s : Text} (h : Quoted.Spells w s) :
    Reads (Reader.value (fuel + 1)) ('"' :: (w ++ ['"'])) (.string s) := by
  intro blanks rest hblanks _
  rw [Reader.value, List.cons_append, List.append_assoc,
    Reader.bind_of_ok (Reader.peek_cons hblanks rfl _)]
  show (Reader.advance >>= fun _ => Quoted.read >>= fun t => pure (Json.string t)) _ = _
  rw [Reader.bind_of_ok (Reader.advance_cons _ _)]
  exact Reader.bind_of_ok (Quoted.isRead_of_spells h rest)

/-- A list is read as a value if its items are. -/
theorem reads_items {fuel : Nat} {xs : List Json} (h : Enclosed Spells '[' ']' v xs)
    (hitem : ∀ w x, Spells w x → w.length < v.length → Reads (Reader.value fuel) w x) :
    Reads (Reader.value (fuel + 1)) v (.list xs) := by
  intro blanks rest hblanks _
  obtain ⟨ys, hys, hsame⟩ := h.relabel
    (fun w x => IsToken w ∧ Answers (Reader.value fuel) w (some x)) Eq
    fun w x hw hlength => ⟨x, ⟨hw.isToken, hitem w x hw hlength⟩, rfl⟩
  rw [List.forall₂_eq_eq_eq] at hsame
  subst hsame
  obtain ⟨inside, rfl, hread⟩ := items_of_enclosed some (fun _ _ h => h) hys
  rw [List.cons_append, Reader.value, Reader.bind_of_ok (Reader.peek_cons hblanks rfl _)]
  show (Reader.advance >>= fun _ => Reader.items (Reader.value fuel) >>= fun xs =>
    pure (Json.list xs)) _ = _
  rw [mapM_some] at hread
  rw [Reader.bind_of_ok (Reader.advance_cons _ _)]
  exact Reader.bind_of_ok (hread rest)

/-- An object is read as a value if the values of its members are. -/
theorem reads_members {fuel : Nat} {ms : List (Text × Json)}
    (h : Enclosed (Member Spells) '\x7b' '\x7d' v ms)
    (hvalue : ∀ w x, Spells w x → w.length < v.length → Reads (Reader.value fuel) w x) :
    Reads (Reader.value (fuel + 1)) v (.object ms) := by
  intro blanks rest hblanks _
  obtain ⟨kvs, hkvs, htaken⟩ := exists_taken (fun acc m => some (m :: acc)) h
    (fun acc key w x b hw hlength hb =>
      ((answers_some_iff.2 (hvalue w x hw hlength)).map fun x => (key, x) :: acc).colon hb) []
  obtain ⟨inside, rfl, hread⟩ := members_of_enclosed hkvs htaken
  rw [List.cons_append, Reader.value, Reader.bind_of_ok (Reader.peek_cons hblanks rfl _)]
  show (Reader.advance >>= fun _ => Reader.members _ [] >>= fun members =>
    pure (Json.object members.reverse)) _ = _
  have hall : ms.foldlM (fun acc m => some (m :: acc)) [] = some (ms.reverse ++ []) := by
    rw [← List.foldl_flip_cons_eq_append']
    exact List.foldlM_pure
  rw [hall, List.append_nil] at hread
  rw [Reader.bind_of_ok (Reader.advance_cons _ _), Reader.bind_of_ok (hread rest),
    List.reverse_reverse]
  rfl

/-- Whatever spells a value is read as that value. -/
theorem reads_value (h : Spells v x) {fuel : Nat} (hfuel : v.length < fuel) :
    Reads (Reader.value fuel) v x := by
  induction fuel generalizing v x with
  | zero => cases hfuel
  | succ fuel ih =>
    cases h with
    | null =>
      intro blanks rest hblanks _
      rw [Reader.value]
      exact Reader.bind_of_ok (Reader.peek_cons hblanks (c := 'n') rfl ("ull".toList ++ rest))
    | yes =>
      intro blanks rest hblanks _
      rw [Reader.value]
      exact Reader.bind_of_ok (Reader.peek_cons hblanks (c := 't') rfl ("rue".toList ++ rest))
    | no =>
      intro blanks rest hblanks _
      rw [Reader.value]
      exact Reader.bind_of_ok (Reader.peek_cons hblanks (c := 'f') rfl ("alse".toList ++ rest))
    | number hn => exact reads_number fuel hn
    | string hs => exact reads_quoted fuel hs
    | list hxs => exact reads_items hxs fun w x hw hlength => ih hw (by omega)
    | object hms => exact reads_members hms fun w x hw hlength => ih hw (by omega)

/-! ## Documents -/

/-- Blanks alone hold nothing. -/
theorem dropBlanks_eq_nil {b : Text} (hb : IsBlanks b) : dropBlanks b = [] := by
  rw [dropBlanks, ← List.append_nil b, List.dropWhile_append_of_pos hb, List.dropWhile_nil]

/-- Blanks belong to no number. -/
theorem isDelimited_of_isBlanks {b : Text} (hb : IsBlanks b) : IsDelimited b := by
  have h : IsDelimited (b ++ []) := isDelimited_append hb nofun
  rwa [List.append_nil] at h

/-- A reader that answers a value answers the document that holds it. -/
theorem document_of_answers {r : Reader α} {result : Option α} {t : Text}
    (h : IsDocument t x) (hr : ∀ v, Spells v x → v.length ≤ t.length → Answers r v result) :
    (∀ y, result = some y → Reader.document r t = .ok y) ∧
      (result = none → ∃ e, Reader.document r t = .error e) := by
  obtain ⟨b, v, b', rfl, hb, hv, hb'⟩ := h
  have hcomes := hr v hv (by simp only [List.length_append]; omega) b b' hb
    (isDelimited_of_isBlanks hb')
  constructor
  · rintro y rfl
    rw [Reader.document, hcomes]
    exact if_pos (dropBlanks_eq_nil hb')
  · rintro rfl
    obtain ⟨e, he⟩ := hcomes
    exact ⟨e, by rw [Reader.document, he]; rfl⟩

/-- Whatever is a document of a value is parsed as that value. -/
theorem parse_of_isDocument {t : Text} (h : IsDocument t x) : parse t = .ok x :=
  (document_of_answers h fun v hv hlength =>
    answers_some_iff.2 (reads_value hv (show v.length < t.length + 1 by omega))).1 x rfl

end InterfacePackage.Json
