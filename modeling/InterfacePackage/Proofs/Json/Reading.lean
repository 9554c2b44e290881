import InterfacePackage.Json.Reader
import InterfacePackage.Proofs.Json.Number
import Mathlib.Data.List.Forall2

/-!
# What readers answer

A reader answers a value in its place when it takes the result from it, or stops there, whatever
blanks stand before the value and whatever follows it. Readers of lists and objects answer what is
enclosed in brackets by the answers to the parts. Main statements: `answers_list` and
`answers_object`.
-/

namespace InterfacePackage.Json

variable {α β σ : Type} {t v rest blanks : Text}

namespace Reader

/-! ## Readers one after another -/

/-- A reader that goes on with the result of another reads on where that one stopped. -/
theorem bind_of_ok {r : Reader α} {next : α → Reader β} {x : α} (h : r t = .ok (x, rest)) :
    (r >>= next) t = next x rest := by
  show (r t >>= fun p => next p.1 p.2) = _
  rw [h]
  rfl

/-- It stops where the other one does. -/
theorem bind_of_error {r : Reader α} {next : α → Reader β} {e : Problem} (h : r t = .error e) :
    (r >>= next) t = .error e := by
  show (r t >>= fun p => next p.1 p.2) = _
  rw [h]
  rfl

theorem advance_cons (c : Char) (t : Text) : advance (c :: t) = .ok ((), t) := rfl

theorem get_eq (t : Text) : (get : Reader Text) t = .ok (t, t) := rfl

/-! ## Readers that fail -/

/-- A reader that stops at some problem whatever it is to read. -/
def Fails (r : Reader α) : Prop := ∀ t, ∃ e, r t = .error e

theorem fails_throw (e : Problem) : Fails (throw e : Reader α) := fun _ => ⟨e, rfl⟩

/-- A reader fails if what it goes on with does. -/
theorem Fails.bind {r : Reader α} {next : α → Reader β} (h : ∀ x, Fails (next x)) :
    Fails (r >>= next) := by
  intro t
  cases hr : r t with
  | error e => exact ⟨e, bind_of_error hr⟩
  | ok p =>
    obtain ⟨e, he⟩ := h p.1 p.2
    exact ⟨e, (bind_of_ok hr).trans he⟩

/-- A value of the wrong kind is a problem. -/
theorem fails_mismatch (wanted : Text) : Fails (mismatch wanted : Reader α) := by
  have hthrow : ∀ found, Fails (throw (.wrongKind found wanted) : Reader α) :=
    fun found => fails_throw _
  unfold mismatch
  refine .bind fun c => ?_
  simp only
  split
  · exact .bind hthrow
  · exact .bind fun _ => .bind fun _ => .bind hthrow
  · exact .bind fun _ => .bind fun _ => .bind hthrow
  · exact .bind fun _ => .bind fun _ => .bind hthrow
  · exact .bind fun _ => .bind fun _ => .bind hthrow
  · exact .bind hthrow
  · exact .bind hthrow
  · split
    · exact .bind fun _ => .bind hthrow
    · exact .bind hthrow

end Reader

/-! ## Blanks -/

/-- A text of blanks only. -/
def IsBlanks (t : Text) : Prop := ∀ c ∈ t, isBlank c = true

/-- A text that starts with a token, and not with the end of a list. -/
def IsToken (t : Text) : Prop := ∃ c rest, t = c :: rest ∧ isBlank c = false ∧ c ≠ ']'

/-- Blanks are dropped up to the next token. -/
theorem dropBlanks_cons (hblanks : IsBlanks blanks) {c : Char} (hc : isBlank c = false) (t : Text) :
    dropBlanks (blanks ++ c :: t) = c :: t := by
  rw [dropBlanks, List.dropWhile_append_of_pos hblanks, List.dropWhile_cons_of_neg (by simp [hc])]

/-- The next token is peeked at behind the blanks before it. -/
theorem Reader.peek_cons (hblanks : IsBlanks blanks) {c : Char} (hc : isBlank c = false)
    (t : Text) : peek (blanks ++ c :: t) = .ok (some c, c :: t) := by
  show Except.ok ((dropBlanks (blanks ++ c :: t)).head?, dropBlanks (blanks ++ c :: t)) = _
  rw [dropBlanks_cons hblanks hc]
  rfl

theorem isBlanks_nil : IsBlanks [] := nofun

/-- What starts with one of these characters belongs to no number. -/
theorem isDelimited_cons {c : Char} (hc : c ∈ [',', ']', '\x7d', ' ', '\t', '\n', '\r'])
    (t : Text) : IsDelimited (c :: t) := by
  intro d hd
  cases hd
  simp only [List.mem_cons, List.not_mem_nil, or_false] at hc
  rcases hc with rfl | rfl | rfl | rfl | rfl | rfl | rfl <;> rfl

/-- Blanks do not belong to a number either. -/
theorem isDelimited_append (hblanks : IsBlanks blanks) (h : IsDelimited rest) :
    IsDelimited (blanks ++ rest) := by
  cases blanks with
  | nil => exact h
  | cons c blanks =>
    have hc := hblanks c List.mem_cons_self
    simp only [isBlank, Bool.or_eq_true, decide_eq_true_eq] at hc
    apply isDelimited_cons
    rcases hc with ((rfl | rfl) | rfl) | rfl <;> decide

/-! ## Values in their places -/

/-- Wherever `v` stands behind blanks, the reader takes `x` from it and leaves what follows. -/
def Reads (r : Reader α) (v : Text) (x : α) : Prop :=
  ∀ blanks rest, IsBlanks blanks → IsDelimited rest → r (blanks ++ (v ++ rest)) = .ok (x, rest)

/-- A reader comes to a result and leaves `rest`, or it stops if there is no result. -/
def Comes (outcome : Except Problem (α × Text)) (rest : Text) : Option α → Prop
  | some x => outcome = .ok (x, rest)
  | none => ∃ e, outcome = .error e

/-- Wherever `v` stands behind blanks, the reader takes the result from it and leaves what follows,
or it stops if there is no result. -/
def Answers (r : Reader α) (v : Text) (result : Option α) : Prop :=
  ∀ blanks rest, IsBlanks blanks → IsDelimited rest → Comes (r (blanks ++ (v ++ rest))) rest result

theorem answers_some_iff {r : Reader α} {x : α} : Answers r v (some x) ↔ Reads r v x := Iff.rfl

/-- A reader that goes on with the result of another comes to the result of both. -/
theorem Comes.bind {r : Reader α} {next : α → Reader β} {result : Option α} {f : α → Option β}
    {middle : Text} (h : Comes (r t) middle result)
    (hnext : ∀ x, result = some x → Comes (next x middle) rest (f x)) :
    Comes ((r >>= next) t) rest (result.bind f) := by
  cases result with
  | some x =>
    rw [Reader.bind_of_ok h]
    exact hnext x rfl
  | none =>
    obtain ⟨e, he⟩ := h
    exact ⟨e, Reader.bind_of_error he⟩

/-- What is made of a result is made of each answer. -/
theorem Answers.map {r : Reader α} {result : Option α} (h : Answers r v result) (f : α → β) :
    Answers (do return f (← r)) v (result.map f) := by
  intro blanks rest hblanks hrest
  rw [Option.map_eq_bind]
  exact (h blanks rest hblanks hrest).bind fun x _ => rfl

/-- The colon behind blanks is taken away. -/
theorem Reader.colon_cons (hblanks : IsBlanks blanks) (t : Text) :
    colon (blanks ++ ':' :: t) = .ok ((), t) := by
  rw [colon, bind_of_ok (peek_cons hblanks rfl _)]
  rfl

/-- The value after a colon is answered as it is in its place. -/
theorem Answers.colon {r : Reader α} {result : Option α} {b : Text} (h : Answers r v result)
    (hb : IsBlanks b) : Answers (do Reader.colon; r) (':' :: (b ++ v)) result := by
  intro blanks rest hblanks hrest
  rw [List.cons_append, Reader.bind_of_ok (Reader.colon_cons hblanks _), List.append_assoc]
  exact h b rest hb hrest

/-- A choice that needs no reading is made where the text stands. -/
theorem comes_liftM (outcome : Except Problem α) (t : Text) :
    Comes ((liftM outcome : Reader α) t) t outcome.toOption := by
  cases outcome with
  | ok x => rfl
  | error e => exact ⟨e, rfl⟩

/-! ## Enclosed parts -/

/-- What is left of a list or an object behind its first part: the other parts, each behind a comma,
and the closing bracket. -/
inductive Others (part : Text → α → Prop) (closing : Char) : Text → List α → Prop where
  | close {b : Text} (hb : IsBlanks b) : Others part closing (b ++ [closing]) []
  | more {b b' p w : Text} {x : α} {xs : List α} (hb : IsBlanks b) (hb' : IsBlanks b')
      (hp : part p x) (h : Others part closing w xs) :
      Others part closing (b ++ ',' :: (b' ++ (p ++ w))) (x :: xs)

/-- Parts between brackets, with commas between them and blanks around them. -/
inductive Enclosed (part : Text → α → Prop) (opening closing : Char) : Text → List α → Prop where
  | empty {b : Text} (hb : IsBlanks b) :
      Enclosed part opening closing (opening :: (b ++ [closing])) []
  | parts {b p w : Text} {x : α} {xs : List α} (hb : IsBlanks b) (hp : part p x)
      (h : Others part closing w xs) :
      Enclosed part opening closing (opening :: (b ++ (p ++ w))) (x :: xs)

namespace Others

variable {part : Text → α → Prop} {closing : Char} {w : Text} {xs : List α}

/-- Parts may be taken for parts of another kind, related to the first ones. -/
theorem relabel (part' : Text → β → Prop) (related : α → β → Prop) (h : Others part closing w xs)
    (hpart : ∀ p x, part p x → p.length < w.length → ∃ y, part' p y ∧ related x y) :
    ∃ ys, Others part' closing w ys ∧ List.Forall₂ related xs ys := by
  induction h with
  | close hb => exact ⟨[], .close hb, .nil⟩
  | more hb hb' hp h ih =>
    simp only [List.length_append, List.length_cons] at hpart
    obtain ⟨y, hy, hrelated⟩ := hpart _ _ hp (by omega)
    obtain ⟨ys, hys, hothers⟩ := ih fun p x hpx hlength => hpart p x hpx (by omega)
    exact ⟨y :: ys, .more hb hb' hy hys, .cons hrelated hothers⟩

/-- What is left behind a part belongs to no number. -/
theorem isDelimited (h : Others part closing w xs) (hclosing : closing = ']' ∨ closing = '\x7d')
    (rest : Text) : IsDelimited (w ++ rest) := by
  cases h with
  | close hb =>
    rw [List.append_assoc]
    apply isDelimited_append hb
    rcases hclosing with rfl | rfl <;> exact isDelimited_cons (by decide) _
  | more hb hb' hp h =>
    rw [List.append_assoc]
    exact isDelimited_append hb (isDelimited_cons (by decide) _)

/-- More characters are left than parts. -/
theorem length_lt (h : Others part closing w xs) : xs.length < w.length := by
  induction h with
  | close hb =>
    rw [List.length_append, List.length_singleton, List.length_nil]
    omega
  | more hb hb' hp h ih =>
    simp only [List.length_append, List.length_cons]
    omega

end Others

/-- Enclosed parts may be taken for parts of another kind, related to the first ones. Each part is
shorter than the whole. -/
theorem Enclosed.relabel {part : Text → α → Prop} (part' : Text → β → Prop)
    (related : α → β → Prop) {opening closing : Char} {v : Text} {xs : List α}
    (h : Enclosed part opening closing v xs)
    (hpart : ∀ p x, part p x → p.length < v.length → ∃ y, part' p y ∧ related x y) :
    ∃ ys, Enclosed part' opening closing v ys ∧ List.Forall₂ related xs ys := by
  cases h with
  | empty hb => exact ⟨[], .empty hb, .nil⟩
  | parts hb hp h =>
    simp only [List.length_append, List.length_cons] at hpart
    obtain ⟨y, hy, hrelated⟩ := hpart _ _ hp (by omega)
    obtain ⟨ys, hys, hothers⟩ := h.relabel part' related
      fun p x hpx hlength => hpart p x hpx (by omega)
    exact ⟨y :: ys, .parts hb hy hys, .cons hrelated hothers⟩

/-! ## Lists -/

/-- Items that stand for themselves are all there. -/
theorem mapM_some (xs : List α) : xs.mapM some = some xs := by
  have h : xs.mapM some = some (xs.map id) := List.mapM_pure
  rw [h, List.map_id]

section

variable {part : Text → β → Prop} {item : Reader α} (item? : β → Option α)
  (hpart : ∀ p y, part p y → IsToken p ∧ Answers item p (item? y))

include hpart

/-- Items are read one after another, up to the first one that cannot be read. -/
theorem itemsFrom_others {p w : Text} {y : β} {ys : List β} {fuel : Nat}
    (hp : Answers item p (item? y)) (h : Others part ']' w ys) (hfuel : ys.length < fuel)
    (rest : Text) :
    Comes (Reader.itemsFrom item fuel (p ++ (w ++ rest))) rest ((y :: ys).mapM item?) := by
  induction h generalizing p y fuel with
  | @close b hb =>
    obtain ⟨fuel, rfl⟩ : ∃ k, fuel = k + 1 := ⟨fuel - 1, by omega⟩
    have hclose : Others part ']' (b ++ [']']) [] := .close hb
    have hread := hp [] _ isBlanks_nil (hclose.isDelimited (.inl rfl) rest)
    rw [Reader.itemsFrom, List.mapM_cons]
    refine hread.bind fun x _ => ?_
    rw [List.append_assoc, List.singleton_append, Reader.bind_of_ok (Reader.peek_cons hb rfl rest)]
    rfl
  | @more b b' p' w z zs hb hb' hp' h ih =>
    obtain ⟨fuel, rfl⟩ : ∃ k, fuel = k + 1 := ⟨fuel - 1, by omega⟩
    have hread := hp [] _ isBlanks_nil ((Others.more hb hb' hp' h).isDelimited (.inl rfl) rest)
    obtain ⟨⟨c, front, rfl, hblank, hbracket⟩, hz⟩ := hpart _ _ hp'
    have hleft := ih hz (show zs.length < fuel by simpa using hfuel)
    rw [Reader.itemsFrom, List.mapM_cons]
    refine hread.bind fun x _ => ?_
    rw [List.append_assoc, List.cons_append, Reader.bind_of_ok (Reader.peek_cons hb rfl _)]
    show Comes ((Reader.advance >>= fun _ => _) _) _ _
    -- behind the comma the next item is peeked at
    rw [Reader.bind_of_ok (Reader.advance_cons _ _), List.append_assoc, List.append_assoc,
      List.cons_append, Reader.bind_of_ok (Reader.peek_cons hb' hblank _)]
    simp only
    exact hleft.bind fun xs _ => rfl

/-- Items between brackets are read, or the first one that cannot be read stops the reader. -/
theorem items_of_enclosed {v : Text} {ys : List β} (h : Enclosed part '[' ']' v ys) :
    ∃ inside, v = '[' :: inside ∧
      ∀ rest, Comes (Reader.items item (inside ++ rest)) rest (ys.mapM item?) := by
  cases h with
  | @empty b hb =>
    refine ⟨_, rfl, fun rest => ?_⟩
    rw [List.append_assoc, List.singleton_append, Reader.items,
      Reader.bind_of_ok (Reader.peek_cons hb rfl rest)]
    rfl
  | @parts b p w y ys hb hp hothers =>
    refine ⟨_, rfl, fun rest => ?_⟩
    obtain ⟨⟨c, front, rfl, hblank, hbracket⟩, hy⟩ := hpart _ _ hp
    have hfuel : ys.length < (c :: (front ++ (w ++ rest))).length := by
      have hlength := hothers.length_lt
      simp only [List.length_append, List.length_cons]
      omega
    have hread := itemsFrom_others item? hpart hy hothers hfuel rest
    rw [List.append_assoc, List.append_assoc, List.cons_append, Reader.items,
      Reader.bind_of_ok (Reader.peek_cons hb hblank _)]
    simp only
    rw [Reader.bind_of_ok (Reader.get_eq _)]
    exact hread

/-- A list is answered with its items, if each of them can be read. -/
theorem answers_list {v : Text} {ys : List β} (h : Enclosed part '[' ']' v ys) :
    Answers (Reader.list item) v (ys.mapM item?) := by
  intro blanks rest hblanks _
  obtain ⟨inside, rfl, hitems⟩ := items_of_enclosed item? hpart h
  rw [List.cons_append, Reader.list, Reader.bind_of_ok (Reader.peek_cons hblanks rfl _)]
  show Comes ((Reader.advance >>= fun _ => Reader.items item) _) _ _
  rw [Reader.bind_of_ok (Reader.advance_cons _ _)]
  exact hitems rest

end

/-! ## Objects -/

/-- What stands between quotes is read as a string. -/
def Quoted.IsRead (k key : Text) : Prop :=
  ∀ rest, Quoted.read (k ++ '"' :: rest) = .ok (key, rest)

/-- A member is its key in quotes and what stands behind the blanks after it. -/
inductive Keyed : Text → Text × Text → Prop where
  | mk {k key b tail : Text} (hk : Quoted.IsRead k key) (hb : IsBlanks b) :
      Keyed ('"' :: (k ++ '"' :: (b ++ tail))) (key, tail)

/-- Members are taken into what has come so far, one after another, up to the first one that cannot
be read. -/
inductive Taken (member : σ → Text → Reader σ) : List (Text × Text) → σ → Option σ → Prop where
  | nil (acc : σ) : Taken member [] acc (some acc)
  | stop {key tail : Text} {kvs : List (Text × Text)} {acc : σ}
      (h : Answers (member acc key) tail none) : Taken member ((key, tail) :: kvs) acc none
  | cons {key tail : Text} {kvs : List (Text × Text)} {acc next : σ} {last : Option σ}
      (h : Answers (member acc key) tail (some next)) (hrest : Taken member kvs next last) :
      Taken member ((key, tail) :: kvs) acc last

section

variable {member : σ → Text → Reader σ} {kvs : List (Text × Text)} {acc : σ} {result : Option σ}

/-- The member after a key is read behind the blanks after the key. -/
theorem Keyed.read_key {p t : Text} {kv : Text × Text} (h : Keyed p kv) :
    ∃ b, IsBlanks b ∧ ∃ front, p ++ t = '"' :: front ∧
      Quoted.read front = .ok (kv.1, b ++ (kv.2 ++ t)) := by
  cases h with
  | mk hk hb =>
    exact ⟨_, hb, _, by simp, hk _⟩

/-- Members are read one after another, up to the first one that cannot be read. -/
theorem membersFrom_others {p w : Text} {kv : Text × Text} {fuel : Nat} (hp : Keyed p kv)
    (h : Others Keyed '\x7d' w kvs) (htaken : Taken member (kv :: kvs) acc result)
    (hfuel : kvs.length < fuel) (rest : Text) :
    Comes (Reader.membersFrom member fuel acc (p ++ (w ++ rest))) rest result := by
  induction h generalizing p kv acc fuel with
  | @close b hb =>
    obtain ⟨fuel, rfl⟩ : ∃ k, fuel = k + 1 := ⟨fuel - 1, by omega⟩
    have hclose : Others Keyed '\x7d' (b ++ ['\x7d']) [] := .close hb
    have hdelimited := hclose.isDelimited (.inr rfl) rest
    obtain ⟨b₀, hb₀, front, hfront, hkey⟩ := hp.read_key (t := (b ++ ['\x7d']) ++ rest)
    rw [hfront, Reader.membersFrom, Reader.bind_of_ok (Reader.advance_cons _ _),
      Reader.bind_of_ok hkey]
    cases htaken with
    | stop hmember =>
      obtain ⟨e, he⟩ := hmember b₀ _ hb₀ hdelimited
      exact ⟨e, Reader.bind_of_error he⟩
    | cons hmember hnil =>
      cases hnil
      rw [Reader.bind_of_ok (hmember b₀ _ hb₀ hdelimited), List.append_assoc, List.singleton_append,
        Reader.bind_of_ok (Reader.peek_cons hb rfl rest)]
      rfl
  | @more b b' p' w kv' kvs hb hb' hp' h ih =>
    obtain ⟨fuel, rfl⟩ : ∃ k, fuel = k + 1 := ⟨fuel - 1, by omega⟩
    have hdelimited := (Others.more hb hb' hp' h).isDelimited (.inr rfl) rest
    obtain ⟨b₀, hb₀, front, hfront, hkey⟩ :=
      hp.read_key (t := (b ++ ',' :: (b' ++ (p' ++ w))) ++ rest)
    rw [hfront, Reader.membersFrom, Reader.bind_of_ok (Reader.advance_cons _ _),
      Reader.bind_of_ok hkey]
    cases htaken with
    | stop hmember =>
      obtain ⟨e, he⟩ := hmember b₀ _ hb₀ hdelimited
      exact ⟨e, Reader.bind_of_error he⟩
    | cons hmember hmore =>
      have hleft := ih hp' hmore (show kvs.length < fuel by simpa using hfuel)
      rw [Reader.bind_of_ok (hmember b₀ _ hb₀ hdelimited), List.append_assoc, List.cons_append,
        Reader.bind_of_ok (Reader.peek_cons hb rfl _)]
      show Comes ((Reader.advance >>= fun _ => _) _) _ _
      -- behind the comma the quote of the next key is peeked at
      obtain ⟨_, _, front', hfront', _⟩ := hp'.read_key (t := w ++ rest)
      rw [hfront'] at hleft
      rw [Reader.bind_of_ok (Reader.advance_cons _ _), List.append_assoc, List.append_assoc,
        hfront', Reader.bind_of_ok (Reader.peek_cons hb' rfl _)]
      exact hleft

/-- Members between braces are read, or the first one that cannot be read stops the reader. -/
theorem members_of_enclosed {v : Text} (h : Enclosed Keyed '\x7b' '\x7d' v kvs)
    (htaken : Taken member kvs acc result) :
    ∃ inside, v = '\x7b' :: inside ∧
      ∀ rest, Comes (Reader.members member acc (inside ++ rest)) rest result := by
  cases h with
  | @empty b hb =>
    cases htaken
    refine ⟨_, rfl, fun rest => ?_⟩
    rw [List.append_assoc, List.singleton_append, Reader.members,
      Reader.bind_of_ok (Reader.peek_cons hb rfl rest)]
    rfl
  | @parts b p w kv kvs hb hp hothers =>
    refine ⟨_, rfl, fun rest => ?_⟩
    have hfuel : kvs.length < (p ++ (w ++ rest)).length := by
      have hlength := hothers.length_lt
      simp only [List.length_append]
      omega
    have hread := membersFrom_others hp hothers htaken hfuel rest
    obtain ⟨_, _, front, hfront, _⟩ := hp.read_key (t := w ++ rest)
    rw [hfront] at hread
    rw [List.append_assoc, List.append_assoc, hfront, Reader.members,
      Reader.bind_of_ok (Reader.peek_cons hb rfl _)]
    simp only
    rw [Reader.bind_of_ok (Reader.get_eq _)]
    exact hread

/-- An object is answered with what its members are taken into. -/
theorem answers_object {v : Text} (h : Enclosed Keyed '\x7b' '\x7d' v kvs)
    (htaken : Taken member kvs acc result) : Answers (Reader.object member acc) v result := by
  intro blanks rest hblanks _
  obtain ⟨inside, rfl, hmembers⟩ := members_of_enclosed h htaken
  rw [List.cons_append, Reader.object, Reader.bind_of_ok (Reader.peek_cons hblanks rfl _)]
  show Comes ((Reader.advance >>= fun _ => Reader.members member acc) _) _ _
  rw [Reader.bind_of_ok (Reader.advance_cons _ _)]
  exact hmembers rest

/-- So is a record that is written as an object. -/
theorem answers_record {v wanted : Text} {slots : List (σ → Reader σ)}
    {short : Nat → σ → Except Problem σ} (h : Enclosed Keyed '\x7b' '\x7d' v kvs)
    (htaken : Taken member kvs acc result) :
    Answers (Reader.record wanted member slots short acc) v result := by
  intro blanks rest hblanks _
  obtain ⟨inside, rfl, hmembers⟩ := members_of_enclosed h htaken
  rw [List.cons_append, Reader.record, Reader.bind_of_ok (Reader.peek_cons hblanks rfl _)]
  show Comes ((Reader.advance >>= fun _ => Reader.members member acc) _) _ _
  rw [Reader.bind_of_ok (Reader.advance_cons _ _)]
  exact hmembers rest

end

end InterfacePackage.Json
