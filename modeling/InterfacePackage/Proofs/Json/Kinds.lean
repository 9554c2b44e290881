import InterfacePackage.Proofs.Json.Grammar

/-!
# Readers of one kind of value

A reader of strings, of lists, of objects or of names from a choice answers a value by its kind: it
takes a value of the kind it wants and stops at every other one. Main statements: `answers_string`,
`answers_items`, `answers_members` and `answers_name`.
-/

namespace InterfacePackage.Json

variable {α σ : Type} {v : Text} {x : Json}

/-! ## Kinds -/

/-- The text of a string. -/
def string? : Json → Option Text
  | string s => some s
  | _ => none

/-- The items of a list. -/
def items? : Json → Option (List Json)
  | list xs => some xs
  | _ => none

/-- The members of an object. -/
def members? : Json → Option (List (Text × Json))
  | object ms => some ms
  | _ => none

namespace IsFirst

/-- Only `null` starts like `null`. -/
theorem eq_null (h : IsFirst 'n' x) : x = .null := by
  rcases x with _ | (_ | _) | _ | _ | _ | _ <;> first | rfl | simp [IsFirst] at h

/-- Only a string starts with a quote. -/
theorem eq_string (h : IsFirst '"' x) : ∃ s, x = .string s := by
  rcases x with _ | (_ | _) | _ | s | _ | _
  case string => exact ⟨s, rfl⟩
  all_goals simp [IsFirst] at h

/-- Only a list starts with a bracket. -/
theorem eq_list (h : IsFirst '[' x) : ∃ xs, x = .list xs := by
  rcases x with _ | (_ | _) | _ | _ | xs | _
  case list => exact ⟨xs, rfl⟩
  all_goals simp [IsFirst] at h

/-- Only an object starts with a brace. -/
theorem eq_object (h : IsFirst '\x7b' x) : ∃ ms, x = .object ms := by
  rcases x with _ | (_ | _) | _ | _ | _ | ms
  case object => exact ⟨ms, rfl⟩
  all_goals simp [IsFirst] at h

end IsFirst

/-! ## Strings, lists and objects -/

/-- A reader of strings answers a value that is one. -/
theorem answers_string (wanted : Text) (h : Spells v x) :
    Answers (Reader.string wanted) v x.string? := by
  intro blanks rest hblanks _
  obtain ⟨c, back, rfl, hc⟩ := h.exists_isFirst
  rw [List.cons_append, Reader.string,
    Reader.bind_of_ok (Reader.peek_cons hblanks hc.isBlank_eq_false _)]
  by_cases hquote : c = '"'
  · subst hquote
    obtain ⟨s, rfl⟩ := hc.eq_string
    cases h with
    | string hs =>
      show Comes ((Reader.advance >>= fun _ => Quoted.read) _) _ _
      rw [Reader.bind_of_ok (Reader.advance_cons _ _), List.append_assoc]
      exact Quoted.isRead_of_spells hs rest
  · have hnone : x.string? = none := by
      cases x with
      | string s => exact absurd hc hquote
      | _ => rfl
    have hother : some c ≠ some '"' := fun heq => hquote (Option.some.inj heq)
    rw [hnone]
    simp only
    exact Reader.fails_mismatch _ _

/-- A reader of lists answers a value that is one by its items. -/
theorem answers_items {item : Reader α} (item? : Json → Option α)
    (hitem : ∀ w y, Spells w y → Answers item w (item? y)) (h : Spells v x) :
    Answers (Reader.list item) v (x.items?.bind (·.mapM item?)) := by
  obtain ⟨c, back, rfl, hc⟩ := h.exists_isFirst
  by_cases hbracket : c = '['
  · subst hbracket
    obtain ⟨xs, rfl⟩ := hc.eq_list
    cases h with
    | list hxs => exact answers_list item? (fun w y hw => ⟨hw.isToken, hitem w y hw⟩) hxs
  · have hnone : x.items? = none := by
      cases x with
      | list xs => exact absurd hc hbracket
      | _ => rfl
    intro blanks rest hblanks _
    rw [List.cons_append, Reader.list,
      Reader.bind_of_ok (Reader.peek_cons hblanks hc.isBlank_eq_false _), hnone]
    have hother : some c ≠ some '[' := fun heq => hbracket (Option.some.inj heq)
    simp only
    exact Reader.fails_mismatch _ _

/-- A reader of objects answers a value that is one by its members. -/
theorem answers_members {member : σ → Text → Reader σ} (step : σ → Text × Json → Option σ)
    (hmember : ∀ acc key w y b, Spells w y → IsBlanks b →
      Answers (member acc key) (':' :: (b ++ w)) (step acc (key, y)))
    (acc : σ) (h : Spells v x) :
    Answers (Reader.object member acc) v (x.members?.bind (·.foldlM step acc)) := by
  obtain ⟨c, back, rfl, hc⟩ := h.exists_isFirst
  by_cases hbrace : c = '\x7b'
  · subst hbrace
    obtain ⟨ms, rfl⟩ := hc.eq_object
    cases h with
    | object hms =>
      obtain ⟨kvs, hkvs, htaken⟩ := exists_taken step hms
        (fun acc key w y b hw _ hb => hmember acc key w y b hw hb) acc
      exact answers_object hkvs htaken
  · have hnone : x.members? = none := by
      cases x with
      | object ms => exact absurd hc hbrace
      | _ => rfl
    intro blanks rest hblanks _
    rw [List.cons_append, Reader.object,
      Reader.bind_of_ok (Reader.peek_cons hblanks hc.isBlank_eq_false _), hnone]
    have hother : some c ≠ some '\x7b' := fun heq => hbrace (Option.some.inj heq)
    simp only
    exact Reader.fails_mismatch _ _

/-! ## Values that may be missing -/

/-- A value, or `null`. -/
def optional? (value? : Json → Option α) : Json → Option (Option α)
  | null => some none
  | x => (value? x).map some

/-- A reader of values that may be missing answers `null` as well. -/
theorem answers_optional {r : Reader α} {value? : Json → Option α} (h : Spells v x)
    (hr : Answers r v (value? x)) : Answers (Reader.optional r) v (optional? value? x) := by
  intro blanks rest hblanks hrest
  obtain ⟨c, back, rfl, hc⟩ := h.exists_isFirst
  rw [List.cons_append, Reader.optional,
    Reader.bind_of_ok (Reader.peek_cons hblanks hc.isBlank_eq_false _)]
  by_cases hn : c = 'n'
  · subst hn
    obtain rfl := hc.eq_null
    cases h
    rfl
  · have hvalue : optional? value? x = (value? x).map some := by
      cases x with
      | null => exact absurd hc hn
      | _ => rfl
    have hother : some c ≠ some 'n' := fun heq => hn (Option.some.inj heq)
    rw [hvalue]
    simp only
    exact hr.map some [] rest isBlanks_nil hrest

/-! ## Names from a choice -/

/-- Nothing but `null`. -/
def null? : Json → Option Unit
  | null => some ()
  | _ => none

/-- A reader of `null` answers it alone. -/
theorem answers_unit (h : Spells v x) : Answers Reader.unit v x.null? := by
  intro blanks rest hblanks _
  obtain ⟨c, back, rfl, hc⟩ := h.exists_isFirst
  rw [List.cons_append, Reader.unit,
    Reader.bind_of_ok (Reader.peek_cons hblanks hc.isBlank_eq_false _)]
  by_cases hn : c = 'n'
  · subst hn
    obtain rfl := hc.eq_null
    cases h
    rfl
  · have hnone : x.null? = none := by
      cases x with
      | null => exact absurd hc hn
      | _ => rfl
    have hother : some c ≠ some 'n' := fun heq => hn (Option.some.inj heq)
    rw [hnone]
    simp only
    exact Reader.fails_mismatch _ _

/-- A name from a choice, alone or as the only key of an object that holds `null`. -/
def name? (choice : List (Text × α)) : Json → Option α
  | string name => (Reader.variant choice name).toOption
  | object [(name, null)] => (Reader.variant choice name).toOption
  | _ => none

/-- An object with a first member is read as a name from its key to its closing brace. -/
theorem name?_object_cons (choice : List (Text × α)) (m : Text × Json) (ms : List (Text × Json)) :
    name? choice (.object (m :: ms)) = (Reader.variant choice m.1).toOption.bind fun a =>
      m.2.null?.bind fun _ => if ms = [] then some a else none := by
  obtain ⟨name, y⟩ := m
  cases y <;> cases ms <;> simp [name?, null?]

/-- The key of an object is taken up to its closing quote. -/
theorem firstKey_append {b k key : Text} (hb : IsBlanks b) (hk : Quoted.Spells k key) (t : Text) :
    Reader.firstKey (b ++ '"' :: (k ++ '"' :: t)) = .ok (key, t) := by
  rw [Reader.firstKey, Reader.bind_of_ok (Reader.peek_cons hb rfl _)]
  show (Reader.advance >>= fun _ => Quoted.read) _ = _
  rw [Reader.bind_of_ok (Reader.advance_cons _ _)]
  exact Quoted.isRead_of_spells hk t

/-- A reader of names from a choice answers an object by its only key. -/
theorem answers_name_object {choice : List (Text × α)} {ms : List (Text × Json)}
    (h : Enclosed (Member Spells) '\x7b' '\x7d' v ms) :
    Answers (Reader.name choice) v (name? choice (.object ms)) := by
  intro blanks rest hblanks hrest
  cases h with
  | @empty b hb =>
    have hkey : Reader.firstKey (b ++ '\x7d' :: rest) = .error .expectedValue := by
      rw [Reader.firstKey, Reader.bind_of_ok (Reader.peek_cons hb rfl _)]
      rfl
    refine ⟨.expectedValue, ?_⟩
    rw [List.cons_append, List.append_assoc, List.singleton_append, Reader.name,
      Reader.bind_of_ok (Reader.peek_cons hblanks rfl _)]
    show (Reader.advance >>= fun _ => Reader.firstKey >>= _) _ = _
    rw [Reader.bind_of_ok (Reader.advance_cons _ _), Reader.bind_of_error hkey]
  | @parts b p w m ms hb hp hothers =>
    obtain ⟨hk, hb₁, hb₂, hy⟩ := hp
    rw [name?_object_cons]
    simp only [List.cons_append, List.append_assoc]
    rw [Reader.name, Reader.bind_of_ok (Reader.peek_cons hblanks rfl _)]
    show Comes ((Reader.advance >>= fun _ => Reader.firstKey >>= fun key =>
      liftM (Reader.variant choice key) >>= fun a => Reader.colon >>= fun _ =>
        Reader.unit >>= fun _ => Reader.peek >>= _) _) _ _
    rw [Reader.bind_of_ok (Reader.advance_cons _ _), Reader.bind_of_ok (firstKey_append hb hk _)]
    refine (comes_liftM _ _).bind fun a _ => ?_
    rw [Reader.bind_of_ok (Reader.colon_cons hb₁ _)]
    refine (answers_unit hy _ _ hb₂ (hothers.isDelimited (.inr rfl) rest)).bind fun _ _ => ?_
    -- behind the value only the closing brace may stand
    cases hothers with
    | close hb' =>
      rw [List.append_assoc, List.singleton_append, Reader.bind_of_ok (Reader.peek_cons hb' rfl _)]
      rfl
    | more hb' hb'' hp hothers =>
      rw [List.append_assoc, List.cons_append, Reader.bind_of_ok (Reader.peek_cons hb' rfl _)]
      exact ⟨.expectedValue, rfl⟩

/-- A reader of names from a choice answers a name of the choice. -/
theorem answers_name {choice : List (Text × α)} (h : Spells v x) :
    Answers (Reader.name choice) v (name? choice x) := by
  obtain ⟨c, back, rfl, hc⟩ := h.exists_isFirst
  by_cases hbrace : c = '\x7b'
  · subst hbrace
    obtain ⟨ms, rfl⟩ := hc.eq_object
    cases h with
    | object hms => exact answers_name_object hms
  intro blanks rest hblanks _
  rw [List.cons_append, Reader.name,
    Reader.bind_of_ok (Reader.peek_cons hblanks hc.isBlank_eq_false _)]
  by_cases hquote : c = '"'
  · subst hquote
    obtain ⟨s, rfl⟩ := hc.eq_string
    cases h with
    | string hs =>
      show Comes ((Reader.advance >>= fun _ => Quoted.read >>= fun name =>
        liftM (Reader.variant choice name)) _) _ _
      rw [Reader.bind_of_ok (Reader.advance_cons _ _), List.append_assoc, List.singleton_append,
        Reader.bind_of_ok (Quoted.isRead_of_spells hs rest)]
      exact comes_liftM _ _
  · have hnone : name? choice x = none := by
      cases x with
      | string s => exact absurd hc hquote
      | object ms => exact absurd hc hbrace
      | _ => rfl
    have hother : some c ≠ some '"' := fun heq => hquote (Option.some.inj heq)
    have hother' : some c ≠ some '\x7b' := fun heq => hbrace (Option.some.inj heq)
    rw [hnone]
    simp only
    exact ⟨_, rfl⟩

end InterfacePackage.Json
