import InterfacePackage.Json.Skip
import InterfacePackage.Proofs.Json.Kinds

/-!
# What is laid out is read

A laid-out document spells the value it was laid out for, so that readers take from it what it was
laid out for, wherever in it they stand. Main statements: `reads_list`, `reads_object` and
`parse_document`.
-/

namespace InterfacePackage.Json

variable {α β σ : Type} {indent t v rest : Text}

/-! ## Blanks -/

/-- A new line is blank if the indentation is. -/
theorem isBlanks_newline (hindent : IsBlanks indent) (depth : Nat) :
    IsBlanks (newline indent depth) := by
  intro c hc
  rcases List.mem_cons.1 hc with rfl | hc
  · rfl
  · obtain ⟨piece, hpiece, hc⟩ := List.mem_flatten.1 hc
    rw [List.eq_of_mem_replicate hpiece] at hc
    exact hindent c hc

/-- The indentation of a document is blank. -/
theorem isBlanks_replicate (width : Nat) : IsBlanks (List.replicate width ' ') := by
  intro c hc
  rw [List.eq_of_mem_replicate hc]
  rfl

/-- One blank. -/
theorem isBlanks_blank : IsBlanks [' '] := by
  intro c hc
  rw [List.mem_singleton.1 hc]
  rfl

/-! ## Strings -/

/-- A written string spells the string. -/
theorem spells_write (t : Text) : Spells (Quoted.write t) (.string t) :=
  .string (Quoted.spells_flatMap_escape t)

/-- A written string is read. -/
theorem reads_string (wanted t : Text) : Reads (Reader.string wanted) (Quoted.write t) t :=
  answers_some_iff.1 (answers_string wanted (spells_write t))

/-- A value that does not start as `null` does is read as one that may be. -/
theorem reads_optional {r : Reader α} {x : α} (h : Reads r v x) {c : Char} (hv : v.head? = some c)
    (hc : isBlank c = false) (hnull : c ≠ 'n') : Reads (Reader.optional r) v (some x) := by
  intro blanks rest hblanks hrest
  obtain ⟨front, rfl⟩ := List.head?_eq_some_iff.1 hv
  have hread := h [] rest isBlanks_nil hrest
  rw [List.cons_append, Reader.optional, Reader.bind_of_ok (Reader.peek_cons hblanks hc _)]
  have hother : some c ≠ some 'n' := fun heq => hnull (Option.some.inj heq)
  simp only
  rw [List.nil_append, List.cons_append] at hread
  rw [Reader.bind_of_ok hread]
  rfl

/-! ## Strings passed over -/

/-- What spells a string between quotes is passed over. -/
theorem Quoted.skip_append {w s : Text} (h : Quoted.Spells w s) (rest : Text) :
    skip (w ++ '"' :: rest) = .ok rest := by
  induction h with
  | nil =>
    rw [List.nil_append, skip.eq_def]
    rfl
  | plain hcontrol hquote hslash _ ih =>
    rw [List.cons_append, skip, if_neg hcontrol, ih]
    · exact hquote
    · exact fun _ _ _ _ _ heq _ => hslash heq
    · exact fun _ heq _ => hslash heq
    · exact fun _ _ heq _ => hslash heq
    · exact fun heq _ => hslash heq
  | @letter letter c w s hletter _ ih =>
    have hu : letter ≠ 'u' := by
      rintro rfl
      cases hletter
    rw [List.cons_append, List.cons_append, skip, hletter]
    · exact ih
    · exact fun _ _ _ _ _ heq _ => hu heq
    · exact hu
  | number hn _ _ _ ih =>
    simp only [List.cons_append]
    rw [skip, hn]
    exact ih
  | pair hn _ hm _ _ ih =>
    simp only [List.cons_append]
    rw [skip, hn]
    simp only
    rw [skip, hm]
    exact ih

/-- A written string is passed over. -/
theorem reads_skip (t : Text) : Reads Reader.skip (Quoted.write t) () := by
  intro blanks rest hblanks _
  have hskip := Quoted.skip_append (Quoted.spells_flatMap_escape t) rest
  rw [Quoted.write, List.cons_append, List.append_assoc, Reader.skip, Skip.value,
    dropBlanks_cons hblanks rfl]
  show ((Quoted.skip (t.flatMap Quoted.escape ++ '"' :: rest) >>= _).map _) = _
  rw [hskip]
  show ((Skip.close _ [] rest).map _) = _
  rw [Skip.close]
  rfl

/-! ## Parts between brackets -/

/-- Parts with commas between them: the first one, and each other one behind a comma. -/
theorem join_cons (p : Text) (ps : List Text) :
    Text.join [','] (p :: ps) = p ++ ps.flatMap (',' :: ·) := by
  induction ps generalizing p with
  | nil => simp [Text.join]
  | cons q ps ih =>
    rw [Text.join, ih]
    · simp
    · simp

/-- What is left of a list or an object when its first part is due: the other parts, each behind a
comma and on its own line, and the closing bracket. -/
def others (closing : Char) (indent : Text) (depth : Nat) (parts : List Text) : Text :=
  parts.flatMap (fun p => ',' :: (newline indent (depth + 1) ++ p))
    ++ (newline indent depth ++ [closing])

/-- Between the brackets stands the first part and then the others. -/
theorem enclose_cons (opening closing : Char) (indent : Text) (depth : Nat) (p : Text)
    (ps : List Text) :
    enclose opening closing indent depth (p :: ps)
      = opening :: (newline indent (depth + 1) ++ (p ++ others closing indent depth ps)) := by
  rw [enclose, if_neg (by simp), List.map_cons, join_cons, others, List.flatMap_map]
  simp

/-- One more part is left behind a comma. -/
theorem others_cons (closing : Char) (indent : Text) (depth : Nat) (p : Text) (ps : List Text) :
    others closing indent depth (p :: ps)
      = ',' :: (newline indent (depth + 1) ++ (p ++ others closing indent depth ps)) := by
  simp [others]

/-- The opening bracket comes first. -/
theorem exists_enclose_eq_cons (opening closing : Char) (indent : Text) (depth : Nat)
    (parts : List Text) :
    ∃ inside, enclose opening closing indent depth parts = opening :: inside := by
  cases parts with
  | nil => exact ⟨_, rfl⟩
  | cons p ps => exact ⟨_, enclose_cons opening closing indent depth p ps⟩

/-- It is what a reader sees of the whole. -/
theorem head?_enclose (opening closing : Char) (indent : Text) (depth : Nat) (parts : List Text) :
    (enclose opening closing indent depth parts).head? = some opening := by
  obtain ⟨inside, h⟩ := exists_enclose_eq_cons opening closing indent depth parts
  rw [h]
  rfl

section

variable {part : Text → α → Prop} {closing : Char} {ps : List Text} {xs : List α} (depth : Nat)
  (hindent : IsBlanks indent)

include hindent

/-- What is left is laid out as the other parts. -/
theorem others_of_forall₂ (h : List.Forall₂ part ps xs) :
    Others part closing (others closing indent depth ps) xs := by
  induction h with
  | nil => exact .close (isBlanks_newline hindent depth)
  | cons hp _ ih =>
    rw [others_cons]
    exact .more isBlanks_nil (isBlanks_newline hindent (depth + 1)) hp ih

/-- Parts are laid out between brackets. -/
theorem enclosed_enclose (opening : Char) (h : List.Forall₂ part ps xs) :
    Enclosed part opening closing (enclose opening closing indent depth ps) xs := by
  cases h with
  | nil => exact .empty isBlanks_nil
  | cons hp hps =>
    rw [enclose_cons]
    exact .parts (isBlanks_newline hindent (depth + 1)) hp (others_of_forall₂ depth hindent hps)

/-- A list laid out over lines is read. -/
theorem reads_list {item : Reader α} (hxs : List.Forall₂ (Reads item) ps xs)
    (htokens : ∀ p ∈ ps, IsToken p) :
    Reads (Reader.list item) (enclose '[' ']' indent depth ps) xs := by
  have hparts : List.Forall₂ (fun p x => IsToken p ∧ Answers item p (some x)) ps xs := by
    rw [List.forall₂_and_left]
    exact ⟨htokens, hxs⟩
  have hanswers := answers_list some (fun _ _ h => h)
    (enclosed_enclose depth hindent '[' hparts)
  rw [mapM_some] at hanswers
  exact answers_some_iff.1 hanswers

end

/-! ## Members -/

/-- Members are taken into what has come so far, one after another. A member is a key and the text
of its value, and it is read from its colon on. -/
def Takes (member : σ → Text → Reader σ) (kvs : List (Text × Text)) (acc last : σ) : Prop :=
  Taken member (kvs.map fun kv => (kv.1, ": ".toList ++ kv.2)) acc (some last)

namespace Takes

variable {member : σ → Text → Reader σ} {kvs : List (Text × Text)} {acc next last : σ}

theorem nil (member : σ → Text → Reader σ) (acc : σ) : Takes member [] acc acc :=
  Taken.nil acc

theorem cons {k : Text} (h : Reads (member acc k) (": ".toList ++ v) next)
    (hrest : Takes member kvs next last) : Takes member ((k, v) :: kvs) acc last :=
  Taken.cons h hrest

/-- More members follow. -/
theorem append {more : List (Text × Text)} (h : Takes member kvs acc next)
    (hmore : Takes member more next last) : Takes member (kvs ++ more) acc last := by
  induction kvs generalizing acc with
  | nil =>
    cases h
    exact hmore
  | cons kv kvs ih =>
    cases h with
    | cons hmember hrest => exact cons hmember (ih hrest)

end Takes

/-- A member as it is written. -/
def written (kv : Text × Text) : Text := Quoted.write kv.1 ++ (": ".toList ++ kv.2)

/-- It stands with its key. -/
theorem keyed_written (kv : Text × Text) : Keyed (written kv) (kv.1, ": ".toList ++ kv.2) := by
  have h : Keyed _ (kv.1, ": ".toList ++ kv.2) :=
    .mk (Quoted.isRead_of_spells (Quoted.spells_flatMap_escape kv.1)) isBlanks_nil
  simpa [written, Quoted.write] using h

/-- It spells the member if its value is spelled. -/
theorem member_written {w : Text} {x : Json} (k : Text) (h : Spells w x) :
    Member Spells (written (k, w)) (k, x) := by
  have hmember := Member.mk (Quoted.spells_flatMap_escape k) isBlanks_nil isBlanks_blank h
  simpa [written, Quoted.write] using hmember

section

variable {member : σ → Text → Reader σ} {kvs : List (Text × Text)} {acc last : σ} (depth : Nat)
  (hindent : IsBlanks indent)

include hindent

/-- Members stand with their keys where they are laid out. -/
theorem enclosed_written (kvs : List (Text × Text)) :
    Enclosed Keyed '\x7b' '\x7d' (enclose '\x7b' '\x7d' indent depth (kvs.map written))
      (kvs.map fun kv => (kv.1, ": ".toList ++ kv.2)) := by
  apply enclosed_enclose depth hindent
  rw [List.forall₂_map_left_iff, List.forall₂_map_right_iff, List.forall₂_same]
  exact fun kv _ => keyed_written kv

/-- An object laid out over lines is read. -/
theorem reads_object (h : Takes member kvs acc last) :
    Reads (Reader.object member acc) (enclose '\x7b' '\x7d' indent depth (kvs.map written)) last :=
  answers_some_iff.1 (answers_object (enclosed_written depth hindent kvs) h)

/-- So is a record that is laid out as an object. -/
theorem reads_record {wanted : Text} {slots : List (σ → Reader σ)}
    {short : Nat → σ → Except Problem σ} (h : Takes member kvs acc last) :
    Reads (Reader.record wanted member slots short acc)
      (enclose '\x7b' '\x7d' indent depth (kvs.map written)) last :=
  answers_some_iff.1 (answers_record (enclosed_written depth hindent kvs) h)

end

/-! ## Values of any kind -/

/-- A value whose numbers are in the form of the grammar. -/
inductive IsWritable : Json → Prop where
  | null : IsWritable .null
  | boolean (b : Bool) : IsWritable (.boolean b)
  | number {n : Numeral} (h : n.IsGrammatical) : IsWritable (.number n)
  | string (t : Text) : IsWritable (.string t)
  | list {xs : List Json} (h : ∀ x ∈ xs, IsWritable x) : IsWritable (.list xs)
  | object {members : List (Text × Json)} (h : ∀ kx ∈ members, IsWritable kx.2) :
      IsWritable (.object members)

/-- The items of a list are laid out one by one. -/
theorem layoutItems_eq (indent : Text) (depth : Nat) (xs : List Json) :
    layoutItems indent depth xs = xs.map (layout indent depth) := by
  induction xs with
  | nil => rw [layoutItems]; rfl
  | cons x xs ih => rw [layoutItems, ih, List.map_cons]

/-- The members of an object are laid out one by one. -/
theorem layoutMembers_eq (indent : Text) (depth : Nat) (members : List (Text × Json)) :
    layoutMembers indent depth members
      = (members.map fun kx => (kx.1, layout indent depth kx.2)).map written := by
  induction members with
  | nil => rw [layoutMembers]; rfl
  | cons kx members ih =>
    obtain ⟨k, x⟩ := kx
    rw [layoutMembers, ih, List.map_cons, List.map_cons, written, List.append_assoc]

/-- What is laid out spells the value it is laid out for. -/
theorem spells_layout (hindent : IsBlanks indent) {x : Json} (h : IsWritable x) (depth : Nat) :
    Spells (layout indent depth x) x := by
  induction h generalizing depth with
  | null =>
    rw [layout]
    exact .null
  | boolean b =>
    cases b with
    | true =>
      rw [layout]
      exact .yes
    | false =>
      rw [layout]
      exact .no
  | number hn =>
    rw [layout]
    exact .number (Numeral.spells_text hn)
  | string t =>
    rw [layout]
    exact spells_write t
  | list _ ih =>
    rw [layout, layoutItems_eq]
    refine .list (enclosed_enclose depth hindent '[' ?_)
    rw [List.forall₂_map_left_iff, List.forall₂_same]
    exact fun x hx => ih x hx (depth + 1)
  | object _ ih =>
    rw [layout, layoutMembers_eq]
    refine .object (enclosed_enclose depth hindent '\x7b' ?_)
    rw [List.forall₂_map_left_iff, List.forall₂_map_left_iff, List.forall₂_same]
    exact fun kx hkx => member_written kx.1 (ih kx hkx (depth + 1))

/-! ## Documents -/

/-- A whole document is read by a reader that reads its value. -/
theorem document_of_reads {r : Reader α} {x : α} (h : Reads r v x) :
    Reader.document r (v ++ ['\n']) = .ok x := by
  have hread := h [] ['\n'] isBlanks_nil (isDelimited_cons (by decide) [])
  rw [List.nil_append] at hread
  rw [Reader.document, hread]
  rfl

/-- A document holds the value it was laid out for. -/
theorem isDocument_document {x : Json} (h : IsWritable x) (width : Nat) :
    IsDocument (x.document width) x :=
  ⟨[], _, ['\n'], rfl, isBlanks_nil, spells_layout (isBlanks_replicate width) h 0,
    fun _ hc => List.mem_singleton.1 hc ▸ rfl⟩

/-- A document is parsed as that value. -/
theorem parse_document {x : Json} (h : IsWritable x) (width : Nat) :
    parse (x.document width) = .ok x :=
  parse_of_isDocument (isDocument_document h width)

end InterfacePackage.Json
