import InterfacePackage.Proofs.Json.Acceptance
import InterfacePackage.Proofs.Package.Dependencies
import InterfacePackage.Settings.ConfigFile
import Mathlib.Data.List.Nodup

/-!
# The members of a configuration file

A configuration file holds an object. Its members are values for fields if every key is that of a
field, no key comes twice and every value is of its field's type. A reader of layers takes exactly
such objects, each to the layer of the values, in whatever order they stand. Main statement:
`Layer.ofText_of_isDocument`.
-/

namespace InterfacePackage

open Json

variable {v text : Text} {x : Json} {f : Field} {ms ms' : List (Text × Json)} {m : Text × Json}

/-! ## Lists of strings and dependencies -/

namespace Json

/-- The strings of a list that holds nothing else. -/
def texts? (x : Json) : Option (List Text) := x.items?.bind (·.mapM string?)

/-- A member whose value is a string. -/
def pair? (m : Text × Json) : Option (Text × Text) := m.2.string?.map (m.1, ·)

/-- The members of an object that holds nothing but strings. -/
def entries? (x : Json) : Option (List (Text × Text)) := x.members?.bind (·.mapM pair?)

/-- A list of strings is answered with the strings. -/
theorem answers_texts (h : Spells v x) : Answers Reader.texts v x.texts? :=
  answers_items string? (fun _ _ hw => answers_string "a string" hw) h

/-- A member laid over dependencies. -/
def put? (d : Dependencies) (m : Text × Json) : Option Dependencies :=
  m.2.string?.map (d.insert m.1)

/-- Members that are strings are laid one after another over the dependencies that have come. -/
theorem foldlM_put? (ms : List (Text × Json)) (d : Dependencies) :
    ms.foldlM put? d = (ms.mapM pair?).map d.overlay := by
  induction ms generalizing d with
  | nil => rfl
  | cons m ms ih =>
    rw [List.foldlM_cons, List.mapM_cons, put?, pair?]
    cases m.2.string? with
    | none => rfl
    | some s =>
      show ms.foldlM put? (d.insert m.1 s) = _
      rw [ih]
      cases ms.mapM pair? <;> rfl

/-- Dependencies are put together from the members of an object one after another. -/
theorem map_ofList_entries? (x : Json) :
    x.entries?.map Dependencies.ofList = x.members?.bind (·.foldlM put? .empty) := by
  rw [entries?, Option.map_bind]
  exact congrArg _ (funext fun ms => (foldlM_put? ms .empty).symm)

/-- An object of strings is answered with the dependencies put together from them. -/
theorem answers_dependencies (h : Spells v x) :
    Answers Reader.dependencies v (x.entries?.map Dependencies.ofList) := by
  rw [map_ofList_entries?]
  exact answers_members put?
    (fun d key w y b hw hb => ((answers_string "a string" hw).map (d.insert key)).colon hb) .empty h

/-- A reader of lists of strings takes nothing else. -/
theorem accepts_texts : Accepts Reader.texts texts? := accepts_items (accepts_string "a string")

/-- A reader of dependencies takes nothing but objects of strings. -/
theorem accepts_dependencies :
    Accepts Reader.dependencies fun x => x.entries?.map Dependencies.ofList := by
  simp only [map_ofList_entries?]
  exact accepts_members put?
    (fun d key t next rest h => (accepts_string "a string").member h) .empty

end Json

/-! ## The value of a field -/

namespace Field

/-- The value that a field is given in a file. -/
def ofJson? : (f : Field) → Json → Option f.Value
  | extraDependencies, x => x.entries?.map Dependencies.ofList
  | targets, x => x.texts?
  | packageManager, x => optional? (name? PackageManager.all) x
  | packageName, x | packageDescription, x | outDir, x | exportDir, x | interfacesDir, x
  | interfacesGlob, x | remappings, x | readme, x | license, x | anchor, x | modulesMarker, x =>
    x.string?

/-- A field is answered with the value it is given. -/
theorem answers_reader (f : Field) (h : Spells v x) : Answers f.reader v (f.ofJson? x) := by
  cases f with
  | extraDependencies => exact answers_dependencies h
  | targets => exact answers_texts h
  | packageManager => exact answers_optional h (answers_name h)
  | _ => exact answers_string _ h

/-- Nothing else is read for a field. -/
theorem accepts_reader (f : Field) : Accepts f.reader f.ofJson? := by
  cases f with
  | extraDependencies => exact accepts_dependencies
  | targets => exact accepts_texts
  | packageManager => exact accepts_optional (accepts_name PackageManager.all) rfl
  | _ => exact accepts_string _

theorem key_of_ofKey? {t : Text} (h : ofKey? t = some f) : f.key = t := by
  simpa using List.find?_some h

theorem ofKey?_key (f : Field) : ofKey? f.key = some f := by
  cases f <;> rfl

/-- Two fields have different keys. -/
theorem key_inj {f g : Field} (h : f.key = g.key) : f = g := by
  have hkey := congrArg ofKey? h
  rw [ofKey?_key, ofKey?_key] at hkey
  exact Option.some.inj hkey

end Field

/-! ## Members taken into a layer -/

/-- Members are those of a configuration file. -/
structure IsConfiguration (ms : List (Text × Json)) : Prop where
  /-- Every key is that of a field. -/
  known : ∀ m ∈ ms, ∃ f : Field, f.key = m.1
  /-- No key comes twice. -/
  nodup : (ms.map (·.1)).Nodup
  /-- Every value is one of its field's type. -/
  typed : ∀ m ∈ ms, ∀ f : Field, f.key = m.1 → (f.ofJson? m.2).isSome

/-- Members in another order are still those of a configuration file. -/
theorem IsConfiguration.of_perm (h : IsConfiguration ms) (hperm : ms'.Perm ms) :
    IsConfiguration ms' where
  known m hm := h.known m (hperm.mem_iff.1 hm)
  nodup := (hperm.map _).nodup_iff.2 h.nodup
  typed m hm := h.typed m (hperm.mem_iff.1 hm)

namespace Layer

variable {l l' : Layer}

/-- Layers with the same values are the same. -/
@[ext]
theorem ext (h : ∀ f, l f = l' f) : l = l' := funext h

theorem set_self (l : Layer) (f : Field) (y : f.Value) : l.set f y f = some y := dif_pos rfl

theorem set_of_ne {f g : Field} (h : f ≠ g) (l : Layer) (y : f.Value) : l.set f y g = l g :=
  dif_neg h

/-- A member taken into a layer. -/
def take? (l : Layer) (m : Text × Json) : Option Layer :=
  (Field.ofKey? m.1).bind fun f => if (l f).isSome then none else (f.ofJson? m.2).map (l.set f)

/-- A member is answered with the layer it is taken into. -/
theorem answers_readMember (l : Layer) (key : Text) {b : Text} (h : Spells v x) (hb : IsBlanks b) :
    Answers (l.readMember key) (':' :: (b ++ v)) (l.take? (key, x)) := by
  rw [readMember, take?]
  cases Field.ofKey? key with
  | none => exact fun _ _ _ _ => ⟨_, rfl⟩
  | some f =>
    rw [Option.bind_some]
    by_cases hcame : (l f).isSome = true
    · rw [if_pos hcame]
      simp only [if_pos hcame]
      exact fun _ _ _ _ => ⟨_, rfl⟩
    · rw [if_neg hcame]
      simp only [if_neg hcame]
      exact ((f.answers_reader h).map (l.set f)).colon hb

/-- A member is taken for the field of its key. -/
theorem take?_of_key (hkey : f.key = m.1) (l : Layer) :
    l.take? m = if (l f).isSome then none else (f.ofJson? m.2).map (l.set f) := by
  rw [take?, ← hkey, Field.ofKey?_key]
  rfl

/-- A member whose key is that of no field is not taken. -/
theorem take?_of_unknown (hkey : ¬ ∃ f : Field, f.key = m.1) (l : Layer) : l.take? m = none := by
  rw [take?]
  cases hf : Field.ofKey? m.1 with
  | none => rfl
  | some f => exact absurd ⟨f, Field.key_of_ofKey? hf⟩ hkey

/-- Nothing else is read as a member of a layer. -/
theorem readMember_eq_ok {l l' : Layer} {key t rest : Text}
    (h : l.readMember key t = .ok (l', rest)) : ∃ b b' v x, t = b ++ ':' :: (b' ++ (v ++ rest)) ∧
      IsBlanks b ∧ IsBlanks b' ∧ Spells v x ∧ l.take? (key, x) = some l' := by
  rw [readMember] at h
  cases hf : Field.ofKey? key with
  | none =>
    rw [hf] at h
    cases h
  | some f =>
    rw [hf] at h
    by_cases hcame : (l f).isSome = true
    · simp only [if_pos hcame] at h
      cases h
    · simp only [if_neg hcame] at h
      obtain ⟨b, b', v, x, ht, hb, hb', hv, hx⟩ := f.accepts_reader.member h
      refine ⟨b, b', v, x, ht, hb, hb', hv, ?_⟩
      rw [take?_of_key (Field.key_of_ofKey? hf), if_neg hcame, hx]

/-! ## The layer of a file -/

/-- The layer of the members of a file. -/
def ofMembers (ms : List (Text × Json)) : Layer := fun f =>
  (ms.find? (·.1 = f.key)).bind fun m => f.ofJson? m.2

/-- A field without a member has no value. -/
theorem ofMembers_of_notMem (h : f.key ∉ ms.map (·.1)) : ofMembers ms f = none := by
  have hnone : ms.find? (·.1 = f.key) = none := by
    rw [List.find?_eq_none]
    intro m hm heq
    exact h (of_decide_eq_true heq ▸ List.mem_map_of_mem (f := (·.1)) hm)
  rw [ofMembers, hnone]
  rfl

/-- A field has the value of the member with its key. -/
theorem ofMembers_of_mem (hnodup : (ms.map (·.1)).Nodup) (hm : m ∈ ms) (hkey : m.1 = f.key) :
    ofMembers ms f = f.ofJson? m.2 := by
  rw [ofMembers]
  cases hfind : ms.find? (·.1 = f.key) with
  | none => exact absurd (decide_eq_true hkey) (List.find?_eq_none.1 hfind m hm)
  | some m' =>
    have hkey' : m'.1 = f.key := of_decide_eq_true (List.find?_some hfind :)
    have hsame : m' = m := List.inj_on_of_nodup_map hnodup (List.mem_of_find?_eq_some hfind) hm
      (hkey'.trans hkey.symm)
    rw [hsame]
    rfl

/-- A field has a value if there is a member for it. -/
theorem isSome_ofMembers (h : IsConfiguration ms) :
    (ofMembers ms f).isSome = true ↔ f.key ∈ ms.map (·.1) := by
  constructor
  · intro hsome
    by_contra hnone
    rw [ofMembers_of_notMem hnone] at hsome
    cases hsome
  · intro hmem
    obtain ⟨m, hm, hkey⟩ := List.mem_map.1 hmem
    rw [ofMembers_of_mem h.nodup hm hkey]
    exact h.typed m hm f hkey.symm

/-- The order of the members does not matter. -/
theorem ofMembers_of_perm (h : IsConfiguration ms) (hperm : ms'.Perm ms) :
    ofMembers ms' = ofMembers ms := by
  ext1 f
  by_cases hmem : f.key ∈ ms.map (·.1)
  · obtain ⟨m, hm, hkey⟩ := List.mem_map.1 hmem
    rw [ofMembers_of_mem h.nodup hm hkey,
      ofMembers_of_mem (h.of_perm hperm).nodup (hperm.mem_iff.2 hm) hkey]
  · have hmem' : f.key ∉ ms'.map (·.1) := mt (hperm.map _).mem_iff.1 hmem
    rw [ofMembers_of_notMem hmem, ofMembers_of_notMem hmem']

/-- One more member gives its field a value. -/
theorem ofMembers_append (hnodup : ((ms ++ [m]).map (·.1)).Nodup) (hkey : f.key = m.1) {y : f.Value}
    (hy : f.ofJson? m.2 = some y) : ofMembers (ms ++ [m]) = (ofMembers ms).set f y := by
  ext1 g
  by_cases hfg : f = g
  · subst hfg
    rw [ofMembers_of_mem hnodup (List.mem_append_right _ (List.mem_singleton_self m)) hkey.symm, hy,
      set_self]
  · have hother : ¬ m.1 = g.key := fun heq => hfg (Field.key_inj (hkey.trans heq))
    rw [set_of_ne hfg, ofMembers, ofMembers, List.find?_append,
      List.find?_cons_of_neg (by simpa using hother), List.find?_nil, Option.or_none]

end Layer

/-- One more member is one of a configuration file if its key is new and its value is one of its
field's type. -/
theorem isConfiguration_append_iff : IsConfiguration (ms ++ [m]) ↔
    IsConfiguration ms ∧ m.1 ∉ ms.map (·.1) ∧
      ∃ f : Field, f.key = m.1 ∧ (f.ofJson? m.2).isSome := by
  constructor
  · rintro ⟨hknown, hnodup, htyped⟩
    rw [List.map_append, List.map_singleton] at hnodup
    obtain ⟨hms, -, hdisjoint⟩ := List.nodup_append.1 hnodup
    have hlast : m ∈ ms ++ [m] := List.mem_append_right _ (List.mem_singleton_self m)
    obtain ⟨f, hkey⟩ := hknown m hlast
    have hfront : IsConfiguration ms := ⟨fun m hm => hknown m (List.mem_append_left _ hm), hms,
      fun m hm => htyped m (List.mem_append_left _ hm)⟩
    refine ⟨hfront, fun hmem => ?_, f, hkey, htyped m hlast f hkey⟩
    exact hdisjoint m.1 hmem m.1 (List.mem_singleton_self _) rfl
  · rintro ⟨⟨hknown, hnodup, htyped⟩, hnew, f, hkey, hsome⟩
    refine ⟨fun m' hm' => ?_, ?_, fun m' hm' g hg => ?_⟩
    · rcases List.mem_append.1 hm' with hm' | hm'
      · exact hknown m' hm'
      · exact ⟨f, List.mem_singleton.1 hm' ▸ hkey⟩
    · rw [List.map_append, List.map_singleton, ← List.concat_eq_append]
      exact hnodup.concat hnew
    · rcases List.mem_append.1 hm' with hm' | hm'
      · exact htyped m' hm' g hg
      · cases List.mem_singleton.1 hm'
        cases Field.key_inj (hg.trans hkey.symm)
        exact hsome

namespace Layer

/-- A further member is taken if there is a configuration file with it. -/
theorem take?_ofMembers (h : IsConfiguration ms) (m : Text × Json) :
    (IsConfiguration (ms ++ [m]) → (ofMembers ms).take? m = some (ofMembers (ms ++ [m]))) ∧
      (¬ IsConfiguration (ms ++ [m]) → (ofMembers ms).take? m = none) := by
  by_cases hknown : ∃ f : Field, f.key = m.1
  · obtain ⟨f, hkey⟩ := hknown
    have hcame : (ofMembers ms f).isSome = true ↔ m.1 ∈ ms.map (·.1) := hkey ▸ isSome_ofMembers h
    rw [take?_of_key hkey]
    constructor
    · intro hall
      obtain ⟨-, hnew, -⟩ := isConfiguration_append_iff.1 hall
      have hlast : m ∈ ms ++ [m] := List.mem_append_right _ (List.mem_singleton_self m)
      obtain ⟨y, hy⟩ := Option.isSome_iff_exists.1 (hall.typed m hlast f hkey)
      rw [if_neg (mt hcame.1 hnew), hy, ofMembers_append hall.nodup hkey hy]
      rfl
    · intro hnot
      split
      · rfl
      · rename_i hnew
        cases hy : f.ofJson? m.2 with
        | none => rfl
        | some y =>
          have hall := isConfiguration_append_iff.2 ⟨h, mt hcame.2 hnew, f, hkey, by rw [hy]; rfl⟩
          exact absurd hall hnot
  · refine ⟨fun hall => absurd ?_ hknown, fun _ => take?_of_unknown hknown _⟩
    exact hall.known m (List.mem_append_right _ (List.mem_singleton_self m))

/-- The members of a configuration file are all taken, and no other ones are. -/
theorem foldlM_take? (ms : List (Text × Json)) :
    (IsConfiguration ms → ms.foldlM take? empty = some (ofMembers ms)) ∧
      (¬ IsConfiguration ms → ms.foldlM take? empty = none) := by
  induction ms using List.reverseRecOn with
  | nil => exact ⟨fun _ => rfl, fun hnot => absurd ⟨nofun, List.nodup_nil, nofun⟩ hnot⟩
  | append_singleton ms m ih =>
    rw [List.foldlM_append]
    by_cases h : IsConfiguration ms
    · rw [ih.1 h]
      obtain ⟨hall, hnot⟩ := take?_ofMembers h m
      exact ⟨fun hms => by simp [hall hms], fun hms => by simp [hnot hms]⟩
    · rw [ih.2 h]
      exact ⟨fun hall => absurd (isConfiguration_append_iff.1 hall).1 h, fun _ => rfl⟩

/-- Members are those of a configuration file if they can all be taken. -/
theorem isConfiguration_iff : (ms.foldlM take? empty).isSome = true ↔ IsConfiguration ms := by
  obtain ⟨hall, hnot⟩ := foldlM_take? ms
  by_cases h : IsConfiguration ms
  · exact iff_of_true (by rw [hall h]; rfl) h
  · exact iff_of_false (by rw [hnot h]; nofun) h

instance : Decidable (IsConfiguration ms) := decidable_of_iff _ isConfiguration_iff

/-- A text that holds the members of a configuration file is read as their layer, and a text that
holds any other object is not read. -/
theorem ofText_of_isDocument (h : IsDocument text (.object ms)) :
    (IsConfiguration ms → ofText text = .ok (ofMembers ms)) ∧
      (¬ IsConfiguration ms → ∃ problem, ofText text = .error problem) := by
  have hanswers : ∀ v, Spells v (.object ms) → v.length ≤ text.length →
      Answers reader v (ms.foldlM take? empty) := by
    intro v hv _
    cases hv with
    | object hms =>
      obtain ⟨kvs, hkvs, htaken⟩ := exists_taken take? hms
        (fun l key w y b hw _ hb => answers_readMember l key hw hb) empty
      exact answers_record hkvs htaken
  have hdocument := document_of_answers h hanswers
  exact ⟨fun hms => hdocument.1 _ ((foldlM_take? ms).1 hms),
    fun hms => hdocument.2 ((foldlM_take? ms).2 hms)⟩

/-- A text that starts as an object is read as a layer only if it holds the members of a
configuration file. -/
theorem exists_of_ofText {b inside : Text} {l : Layer} (hb : IsBlanks b)
    (h : ofText (b ++ '\x7b' :: inside) = .ok l) :
    ∃ ms, IsDocument (b ++ '\x7b' :: inside) (.object ms) ∧ IsConfiguration ms := by
  obtain ⟨rest, hread, hrest⟩ := document_eq_ok h
  have hmembers : Reader.members readMember empty inside = .ok (l, rest) := by
    rw [reader, Reader.record, Reader.bind_of_ok (Reader.peek_cons hb rfl inside)] at hread
    exact hread
  obtain ⟨v, ms, hv, hspells, hms⟩ := members_eq_ok take?
    (fun acc key t next rest => readMember_eq_ok) hmembers
  refine ⟨ms, ⟨b, v, rest, by rw [hv], hb, .object hspells, hrest⟩, isConfiguration_iff.1 ?_⟩
  rw [hms]
  rfl

end Layer

end InterfacePackage
