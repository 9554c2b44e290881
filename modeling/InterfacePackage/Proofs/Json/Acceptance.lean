import InterfacePackage.Proofs.Json.Kinds
import Mathlib.Data.List.TakeWhile

/-!
# What readers take

A reader takes no more than it answers: whatever it takes from a text spells a value of the kind it
wants, behind blanks. Main statements: `accepts_string`, `accepts_items`, `accepts_members` and
`accepts_name`.
-/

namespace InterfacePackage.Json

variable {α β σ : Type} {t v rest : Text} {x : Json}

/-! ## Steps that a reader has taken -/

namespace Reader

/-- A reader that has gone on with the result of another has read what that one left. -/
theorem bind_eq_ok {r : Reader α} {next : α → Reader β} {p : β × Text}
    (h : (r >>= next) t = .ok p) : ∃ y middle, r t = .ok (y, middle) ∧ next y middle = .ok p := by
  cases hr : r t with
  | error e =>
    rw [bind_of_error hr] at h
    cases h
  | ok q => exact ⟨q.1, q.2, rfl, (bind_of_ok hr).symm.trans h⟩

/-- A reader that always fails has taken nothing. -/
theorem Fails.ne_ok {r : Reader α} (h : Fails r) {p : α × Text} : r t ≠ .ok p := by
  obtain ⟨e, he⟩ := h t
  rw [he]
  nofun

/-- A reader that has peeked at a token has read on from there. -/
theorem peek_bind_eq_ok {next : Option Char → Reader β} {p : β × Text}
    (h : (peek >>= next) t = .ok p) :
    ∃ b middle, IsBlanks b ∧ t = b ++ middle ∧ next middle.head? middle = .ok p :=
  ⟨t.takeWhile isBlank, dropBlanks t, fun _ hc => List.mem_takeWhile_imp hc,
    List.takeWhile_append_dropWhile.symm, h⟩

/-- A colon that has been read stands behind blanks. -/
theorem colon_eq_ok {u : Unit} (h : colon t = .ok (u, rest)) :
    ∃ b, IsBlanks b ∧ t = b ++ ':' :: rest := by
  obtain ⟨b, middle, hb, rfl, hnext⟩ := peek_bind_eq_ok h
  cases middle with
  | nil => cases hnext
  | cons c tail =>
    by_cases hcolon : c = ':'
    · subst hcolon
      cases hnext
      exact ⟨b, hb, rfl⟩
    · simp only [List.head?_cons] at hnext
      cases hnext

/-- A choice that needs no reading has left everything. -/
theorem liftM_eq_ok {outcome : Except Problem α} {y : α}
    (h : (liftM outcome : Reader α) t = .ok (y, rest)) : outcome = .ok y ∧ t = rest := by
  cases outcome with
  | error e => cases h
  | ok y =>
    cases h
    exact ⟨rfl, rfl⟩

/-- A literal name that has been read was there. -/
theorem identifier_eq_ok {name : Text} {u : Unit} (h : identifier name t = .ok (u, rest)) :
    t = name ++ rest := by
  induction name generalizing t with
  | nil =>
    cases h
    rfl
  | cons c name ih =>
    cases t with
    | nil => cases h
    | cons d t =>
      rw [identifier] at h
      simp only at h
      split at h
      · rename_i heq
        rw [heq, ih h, List.cons_append]
      · cases h

end Reader

theorem IsBlanks.append {b b' : Text} (hb : IsBlanks b) (hb' : IsBlanks b') : IsBlanks (b ++ b') :=
  fun c hc => (List.mem_append.1 hc).elim (hb c) (hb' c)

/-! ## Strings -/

namespace Quoted

/-- What is put before a string that has been read is all that is new in the result. -/
theorem exists_of_map {e : Except Problem (Text × Text)} {f : Text → Text} {s : Text}
    (h : (e.map fun (t, rest) => (f t, rest)) = .ok (s, rest)) :
    ∃ t, e = .ok (t, rest) ∧ s = f t := by
  cases e with
  | error _ => cases h
  | ok p =>
    cases h
    exact ⟨_, rfl, rfl⟩

/-- A string that has been read is spelled up to its closing quote. -/
theorem read_eq_ok {s : Text} (h : read t = .ok (s, rest)) :
    ∃ w, t = w ++ '"' :: rest ∧ Spells w s := by
  fun_induction read t generalizing s rest
  -- reading succeeds when the string ends here, or after one more character and the rest of it
  case case2 =>
    cases h
    exact ⟨[], rfl, .nil⟩
  case case6 hn hlow hhigh _ _ _ _ _ _ hm hlow' ih =>
    obtain ⟨t, ht, rfl⟩ := exists_of_map h
    obtain ⟨w, rfl, hw⟩ := ih ht
    exact ⟨_, rfl, .pair hn hhigh hm hlow' hw⟩
  case case12 hn hlow hhigh ih =>
    obtain ⟨t, ht, rfl⟩ := exists_of_map h
    obtain ⟨w, rfl, hw⟩ := ih ht
    exact ⟨_, rfl, .number hn (Bool.eq_false_iff.2 hhigh) (Bool.eq_false_iff.2 hlow) hw⟩
  case case14 hletter ih =>
    obtain ⟨t, ht, rfl⟩ := exists_of_map h
    obtain ⟨w, rfl, hw⟩ := ih ht
    exact ⟨_, rfl, .letter hletter hw⟩
  case case18 hquote _ _ hslash hend hc ih =>
    obtain ⟨t, ht, rfl⟩ := exists_of_map h
    obtain ⟨w, rfl, hw⟩ := ih ht
    refine ⟨_, rfl, .plain hc hquote (fun hbackslash => ?_) hw⟩
    -- something stands behind the backslash, if only the closing quote
    obtain ⟨c, more, hmore⟩ := List.exists_cons_of_ne_nil (l := w ++ '"' :: rest) (by simp)
    exact hslash c more hbackslash hmore
  all_goals cases h

end Quoted

/-! ## Values in their places -/

/-- Whatever the reader takes from a text spells a value behind blanks, and is what `value?` makes
of that value. -/
def Accepts (r : Reader α) (value? : Json → Option α) : Prop :=
  ∀ t y rest, r t = .ok (y, rest) → ∃ b v x,
    t = b ++ (v ++ rest) ∧ IsBlanks b ∧ Spells v x ∧ value? x = some y

/-- A reader of strings takes nothing else. -/
theorem accepts_string (wanted : Text) : Accepts (Reader.string wanted) string? := by
  intro t s rest h
  obtain ⟨b, middle, hb, rfl, hnext⟩ := Reader.peek_bind_eq_ok h
  by_cases hquote : middle.head? = some '"'
  · obtain ⟨tail, rfl⟩ := List.head?_eq_some_iff.1 hquote
    obtain ⟨w, rfl, hw⟩ := Quoted.read_eq_ok (hnext : Quoted.read tail = .ok (s, rest))
    exact ⟨b, _, _, by simp, hb, .string hw, rfl⟩
  · simp only at hnext
    exact absurd hnext (Reader.fails_mismatch wanted).ne_ok

/-- A reader that makes something of a value after a colon takes the value after the colon. -/
theorem Accepts.member {r : Reader α} {value? : Json → Option α} (hr : Accepts r value?) {f : α → σ}
    {next : σ} (h : (do Reader.colon; return f (← r) : Reader σ) t = .ok (next, rest)) :
    ∃ b b' v x, t = b ++ ':' :: (b' ++ (v ++ rest)) ∧ IsBlanks b ∧ IsBlanks b' ∧ Spells v x ∧
      (value? x).map f = some next := by
  obtain ⟨u, middle, hcolon, hvalue⟩ := Reader.bind_eq_ok h
  obtain ⟨b, hb, rfl⟩ := Reader.colon_eq_ok hcolon
  obtain ⟨y, left, hy, hdone⟩ := Reader.bind_eq_ok hvalue
  cases hdone
  obtain ⟨b', v, x, rfl, hb', hv, hx⟩ := hr _ _ _ hy
  exact ⟨b, b', v, x, rfl, hb, hb', hv, by rw [hx]; rfl⟩

/-! ## Lists -/

section

variable {item : Reader α} {item? : Json → Option α} (hitem : Accepts item item?)

include hitem

/-- Items that have been read one after another are spelled with commas between them. -/
theorem itemsFrom_eq_ok {fuel : Nat} {ys : List α}
    (h : Reader.itemsFrom item fuel t = .ok (ys, rest)) :
    ∃ b v w x xs, t = b ++ (v ++ (w ++ rest)) ∧ IsBlanks b ∧ Spells v x ∧
      Others Spells ']' w xs ∧ (x :: xs).mapM item? = some ys := by
  induction fuel generalizing t ys with
  | zero => cases h
  | succ fuel ih =>
    rw [Reader.itemsFrom] at h
    obtain ⟨y, middle, hy, hpeek⟩ := Reader.bind_eq_ok h
    obtain ⟨b, v, x, rfl, hb, hv, hx⟩ := hitem _ _ _ hy
    obtain ⟨b', middle, hb', rfl, hnext⟩ := Reader.peek_bind_eq_ok hpeek
    cases middle with
    | nil => cases hnext
    | cons c tail =>
      by_cases hbracket : c = ']'
      · subst hbracket
        cases hnext
        exact ⟨b, v, b' ++ [']'], x, [], by simp, hb, hv, .close hb', by simp [hx]⟩
      by_cases hcomma : c = ','
      · subst hcomma
        change (Reader.advance >>= fun _ => _) _ = _ at hnext
        rw [Reader.bind_of_ok (Reader.advance_cons _ _)] at hnext
        obtain ⟨b'', middle, hb'', rfl, hmore⟩ := Reader.peek_bind_eq_ok hnext
        cases middle with
        | nil => cases hmore
        | cons c tail =>
          by_cases hlast : c = ']'
          · subst hlast
            cases hmore
          · simp only [List.head?_cons] at hmore
            obtain ⟨ys, left, hys, hdone⟩ := Reader.bind_eq_ok hmore
            cases hdone
            obtain ⟨b₃, v', w, x', xs, htail, hb₃, hv', hothers, hxs⟩ := ih hys
            refine ⟨b, v, b' ++ ',' :: ((b'' ++ b₃) ++ (v' ++ w)), x, x' :: xs, ?_, hb, hv,
              .more hb' (hb''.append hb₃) hv' hothers, ?_⟩
            · rw [htail]
              simp
            · rw [List.mapM_cons, hx, hxs]
              rfl
      · simp only [List.head?_cons] at hnext
        cases hnext

/-- A reader of lists takes nothing else. -/
theorem accepts_items :
    Accepts (Reader.list item) fun x => x.items?.bind (·.mapM item?) := by
  intro t ys rest h
  obtain ⟨b, middle, hb, rfl, hnext⟩ := Reader.peek_bind_eq_ok h
  by_cases hbracket : middle.head? = some '['
  · obtain ⟨inside, rfl⟩ := List.head?_eq_some_iff.1 hbracket
    have hitems : Reader.items item inside = .ok (ys, rest) := hnext
    obtain ⟨b', middle, hb', rfl, hinside⟩ := Reader.peek_bind_eq_ok hitems
    cases middle with
    | nil => cases hinside
    | cons c tail =>
      by_cases hclose : c = ']'
      · subst hclose
        cases hinside
        exact ⟨b, '[' :: (b' ++ [']']), .list [], by simp, hb, .list (.empty hb'), rfl⟩
      · simp only [List.head?_cons] at hinside
        rw [Reader.bind_of_ok (Reader.get_eq _)] at hinside
        obtain ⟨b'', v, w, x, xs, htail, hb'', hv, hothers, hxs⟩ := itemsFrom_eq_ok hitem hinside
        refine ⟨b, '[' :: ((b' ++ b'') ++ (v ++ w)), .list (x :: xs), ?_, hb,
          .list (.parts (hb'.append hb'') hv hothers), hxs⟩
        rw [htail]
        simp
  · simp only at hnext
    exact absurd hnext (Reader.fails_mismatch "a sequence").ne_ok

end

/-! ## Objects -/

section

variable {member : σ → Text → Reader σ} (step : σ → Text × Json → Option σ)
  (hmember : ∀ acc key t next rest, member acc key t = .ok (next, rest) → ∃ b b' v x,
    t = b ++ ':' :: (b' ++ (v ++ rest)) ∧ IsBlanks b ∧ IsBlanks b' ∧ Spells v x ∧
      step acc (key, x) = some next)

include hmember

/-- Members that have been read one after another are spelled with commas between them. -/
theorem membersFrom_eq_ok {fuel : Nat} {acc last : σ}
    (h : Reader.membersFrom member fuel acc ('"' :: t) = .ok (last, rest)) :
    ∃ p m ms w, '"' :: t = p ++ (w ++ rest) ∧ Member Spells p m ∧
      Others (Member Spells) '\x7d' w ms ∧ (m :: ms).foldlM step acc = some last := by
  induction fuel generalizing t acc with
  | zero => cases h
  | succ fuel ih =>
    rw [Reader.membersFrom, Reader.bind_of_ok (Reader.advance_cons _ _)] at h
    obtain ⟨key, middle, hkey, hvalue⟩ := Reader.bind_eq_ok h
    obtain ⟨k, rfl, hk⟩ := Quoted.read_eq_ok hkey
    obtain ⟨next, middle, hnext, hpeek⟩ := Reader.bind_eq_ok hvalue
    obtain ⟨b, b', v, x, rfl, hb, hb', hv, hstep⟩ := hmember _ _ _ _ _ hnext
    have hm : Member Spells ('"' :: (k ++ '"' :: (b ++ ':' :: (b' ++ v)))) (key, x) :=
      .mk hk hb hb' hv
    obtain ⟨b'', middle, hb'', rfl, hafter⟩ := Reader.peek_bind_eq_ok hpeek
    cases middle with
    | nil => cases hafter
    | cons c tail =>
      by_cases hbrace : c = '\x7d'
      · subst hbrace
        cases hafter
        exact ⟨_, _, [], b'' ++ ['\x7d'], by simp, hm, .close hb'', by simp [hstep]⟩
      by_cases hcomma : c = ','
      · subst hcomma
        change (Reader.advance >>= fun _ => _) _ = _ at hafter
        rw [Reader.bind_of_ok (Reader.advance_cons _ _)] at hafter
        obtain ⟨b₃, middle, hb₃, rfl, hmore⟩ := Reader.peek_bind_eq_ok hafter
        by_cases hquote : middle.head? = some '"'
        · obtain ⟨tail, rfl⟩ := List.head?_eq_some_iff.1 hquote
          obtain ⟨p, m, ms, w, htail, hp, hothers, hms⟩ := ih hmore
          refine ⟨_, _, m :: ms, b'' ++ ',' :: (b₃ ++ (p ++ w)), ?_, hm,
            .more hb'' hb₃ hp hothers, ?_⟩
          · rw [htail]
            simp
          · rw [List.foldlM_cons, hstep]
            exact hms
        · cases middle with
          | nil => cases hmore
          | cons c tail =>
            by_cases hlast : c = '\x7d'
            · subst hlast
              cases hmore
            · have hother : c ≠ '"' := fun heq => hquote (congrArg some heq)
              simp only [List.head?_cons] at hmore
              cases hmore
      · simp only [List.head?_cons] at hafter
        cases hafter

/-- Members that have been read between braces are spelled between them. -/
theorem members_eq_ok {acc last : σ} (h : Reader.members member acc t = .ok (last, rest)) :
    ∃ v ms, '\x7b' :: t = v ++ rest ∧ Enclosed (Member Spells) '\x7b' '\x7d' v ms ∧
      ms.foldlM step acc = some last := by
  obtain ⟨b, middle, hb, rfl, hnext⟩ := Reader.peek_bind_eq_ok h
  cases middle with
  | nil => cases hnext
  | cons c tail =>
    by_cases hbrace : c = '\x7d'
    · subst hbrace
      cases hnext
      exact ⟨'\x7b' :: (b ++ ['\x7d']), [], by simp, .empty hb, rfl⟩
    by_cases hquote : c = '"'
    · subst hquote
      simp only [List.head?_cons] at hnext
      rw [Reader.bind_of_ok (Reader.get_eq _)] at hnext
      obtain ⟨p, m, ms, w, htail, hp, hothers, hms⟩ := membersFrom_eq_ok step hmember hnext
      refine ⟨'\x7b' :: (b ++ (p ++ w)), m :: ms, ?_, .parts hb hp hothers, hms⟩
      rw [htail]
      simp
    · simp only [List.head?_cons] at hnext
      cases hnext

/-- A reader of objects takes nothing else. -/
theorem accepts_members (acc : σ) :
    Accepts (Reader.object member acc) fun x => x.members?.bind (·.foldlM step acc) := by
  intro t last rest h
  obtain ⟨b, middle, hb, rfl, hnext⟩ := Reader.peek_bind_eq_ok h
  by_cases hbrace : middle.head? = some '\x7b'
  · obtain ⟨inside, rfl⟩ := List.head?_eq_some_iff.1 hbrace
    have hmembers : Reader.members member acc inside = .ok (last, rest) := hnext
    obtain ⟨v, ms, hv, hspells, hms⟩ := members_eq_ok step hmember hmembers
    exact ⟨b, v, .object ms, by rw [hv], hb, .object hspells, hms⟩
  · simp only at hnext
    exact absurd hnext (Reader.fails_mismatch "a map").ne_ok

end

/-! ## Values that may be missing, and names -/

/-- A reader of values that may be missing takes `null` besides. -/
theorem accepts_optional {r : Reader α} {value? : Json → Option α} (hr : Accepts r value?)
    (hnull : value? .null = none) : Accepts (Reader.optional r) (optional? value?) := by
  intro t y? rest h
  obtain ⟨b, middle, hb, rfl, hnext⟩ := Reader.peek_bind_eq_ok h
  by_cases hn : middle.head? = some 'n'
  · obtain ⟨tail, rfl⟩ := List.head?_eq_some_iff.1 hn
    change (Reader.advance >>= fun _ => _) _ = _ at hnext
    rw [Reader.bind_of_ok (Reader.advance_cons _ _)] at hnext
    obtain ⟨u, left, hname, hdone⟩ := Reader.bind_eq_ok hnext
    cases hdone
    rw [Reader.identifier_eq_ok hname]
    exact ⟨b, "null".toList, .null, rfl, hb, .null, rfl⟩
  · simp only at hnext
    obtain ⟨y, left, hy, hdone⟩ := Reader.bind_eq_ok hnext
    cases hdone
    obtain ⟨b', v, x, rfl, hb', hv, hx⟩ := hr _ _ _ hy
    refine ⟨b ++ b', v, x, by simp, hb.append hb', hv, ?_⟩
    cases x with
    | null =>
      rw [hnull] at hx
      cases hx
    | _ =>
      rw [optional?, hx]
      · rfl
      · nofun

/-- A reader of `null` takes nothing else. -/
theorem accepts_unit : Accepts Reader.unit null? := by
  intro t u rest h
  obtain ⟨b, middle, hb, rfl, hnext⟩ := Reader.peek_bind_eq_ok h
  by_cases hn : middle.head? = some 'n'
  · obtain ⟨tail, rfl⟩ := List.head?_eq_some_iff.1 hn
    have hname : Reader.identifier "ull".toList tail = .ok (u, rest) := hnext
    rw [Reader.identifier_eq_ok hname]
    exact ⟨b, "null".toList, .null, rfl, hb, .null, rfl⟩
  · simp only at hnext
    exact absurd hnext (Reader.fails_mismatch "unit").ne_ok

/-- The key of an object that has been read stands between quotes behind blanks. -/
theorem firstKey_eq_ok {key : Text} (h : Reader.firstKey t = .ok (key, rest)) :
    ∃ b k, IsBlanks b ∧ t = b ++ '"' :: (k ++ '"' :: rest) ∧ Quoted.Spells k key := by
  obtain ⟨b, middle, hb, rfl, hnext⟩ := Reader.peek_bind_eq_ok h
  cases middle with
  | nil => cases hnext
  | cons c tail =>
    by_cases hquote : c = '"'
    · subst hquote
      have hread : Quoted.read tail = .ok (key, rest) := hnext
      obtain ⟨k, rfl, hk⟩ := Quoted.read_eq_ok hread
      exact ⟨b, k, hb, rfl, hk⟩
    by_cases hbrace : c = '\x7d'
    · subst hbrace
      cases hnext
    · simp only [List.head?_cons] at hnext
      cases hnext

/-- A name that has been read from an object is its only key, which holds `null`. -/
theorem name_object_eq_ok {choice : List (Text × α)} {y : α}
    (h : Reader.name choice ('\x7b' :: t) = .ok (y, rest)) :
    ∃ v x, '\x7b' :: t = v ++ rest ∧ Spells v x ∧ name? choice x = some y := by
  have hpeek : Reader.peek ('\x7b' :: t) = .ok (some '\x7b', '\x7b' :: t) :=
    Reader.peek_cons isBlanks_nil rfl t
  rw [Reader.name, Reader.bind_of_ok hpeek] at h
  change (Reader.advance >>= fun _ => _) _ = _ at h
  rw [Reader.bind_of_ok (Reader.advance_cons _ _)] at h
  obtain ⟨key, left, hkey, hfound⟩ := Reader.bind_eq_ok h
  obtain ⟨b, k, hb, rfl, hk⟩ := firstKey_eq_ok hkey
  obtain ⟨a, left', hlift, hvalue⟩ := Reader.bind_eq_ok hfound
  obtain ⟨hvariant, rfl⟩ := Reader.liftM_eq_ok hlift
  obtain ⟨u, left', hcolon, hnull⟩ := Reader.bind_eq_ok hvalue
  obtain ⟨b₁, hb₁, rfl⟩ := Reader.colon_eq_ok hcolon
  obtain ⟨u', left', hunit, hclose⟩ := Reader.bind_eq_ok hnull
  obtain ⟨b₂, w, x, rfl, hb₂, hw, hx⟩ := accepts_unit _ _ _ hunit
  obtain ⟨b₃, middle, hb₃, rfl, hdone⟩ := Reader.peek_bind_eq_ok hclose
  cases middle with
  | nil => cases hdone
  | cons c tail =>
    by_cases hbrace : c = '\x7d'
    · subst hbrace
      cases hdone
      have hm : Member Spells ('"' :: (k ++ '"' :: (b₁ ++ ':' :: (b₂ ++ w)))) (key, x) :=
        .mk hk hb₁ hb₂ hw
      refine ⟨_, .object [(key, x)], ?_, .object (.parts hb hm (.close hb₃)), ?_⟩
      · simp
      · rw [name?_object_cons, hvariant, hx]
        rfl
    · simp only [List.head?_cons] at hdone
      cases hdone

/-- A reader of names from a choice takes nothing else. -/
theorem accepts_name (choice : List (Text × α)) : Accepts (Reader.name choice) (name? choice) := by
  intro t y rest h
  obtain ⟨b, middle, hb, rfl, hnext⟩ := Reader.peek_bind_eq_ok h
  cases middle with
  | nil => cases hnext
  | cons c tail =>
    by_cases hquote : c = '"'
    · subst hquote
      change (Reader.advance >>= fun _ => _) _ = _ at hnext
      rw [Reader.bind_of_ok (Reader.advance_cons _ _)] at hnext
      obtain ⟨s, left, hread, hlift⟩ := Reader.bind_eq_ok hnext
      obtain ⟨w, rfl, hw⟩ := Quoted.read_eq_ok hread
      obtain ⟨hvariant, rfl⟩ := Reader.liftM_eq_ok hlift
      have hname : name? choice (.string s) = some y := by
        rw [name?, hvariant]
        rfl
      exact ⟨b, '"' :: (w ++ ['"']), .string s, by simp, hb, .string hw, hname⟩
    by_cases hbrace : c = '\x7b'
    · subst hbrace
      have hname : Reader.name choice ('\x7b' :: tail) = .ok (y, rest) :=
        (Reader.bind_of_ok (Reader.peek_cons isBlanks_nil rfl tail)).trans hnext
      obtain ⟨v, x, hv, hspells, hx⟩ := name_object_eq_ok hname
      exact ⟨b, v, x, by rw [hv], hb, hspells, hx⟩
    · simp only [List.head?_cons] at hnext
      cases hnext

/-! ## Documents -/

/-- Behind what has been read of a whole text stand blanks at most. -/
theorem document_eq_ok {r : Reader α} {y : α} (h : Reader.document r t = .ok y) :
    ∃ rest, r t = .ok (y, rest) ∧ IsBlanks rest := by
  rw [Reader.document] at h
  cases hread : r t with
  | error e =>
    rw [hread] at h
    cases h
  | ok p =>
    rw [hread] at h
    change (if dropBlanks p.2 = [] then Except.ok p.1
      else Except.error Problem.trailingCharacters) = _ at h
    split at h
    · rename_i hrest
      cases h
      exact ⟨p.2, rfl, List.dropWhile_eq_nil_iff.1 hrest⟩
    · cases h

end InterfacePackage.Json
