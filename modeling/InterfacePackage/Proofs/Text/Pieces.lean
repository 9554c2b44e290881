import InterfacePackage.Text.Basic

/-!
# Pieces and occurrences

What cutting a text at a separator does to texts put together from parts, and what it means that a
cut is the first one. Main statements: `split_append` (a separator in a text cuts its two sides
apart), `split_join` (joined pieces come apart again) and `cutAt_eq_some_iff` (a text is cut at the
first occurrence of a pattern).
-/

namespace InterfacePackage.Text

/-! ## Cutting and joining -/

/-- A text without the separator is one piece. -/
theorem split_of_notMem {sep : Char} {t : Text} (h : sep ∉ t) : split sep t = [t] := by
  induction t with
  | nil => rfl
  | cons c t ih =>
    simp only [List.mem_cons, not_or] at h
    rw [split_cons, ih h.2, splitStep.eq_def, if_neg (Ne.symm h.1)]

/-- A separator cuts its two sides apart. -/
theorem split_append (sep : Char) (a b : Text) :
    split sep (a ++ sep :: b) = split sep a ++ split sep b := by
  induction a with
  | nil => simp [splitStep]
  | cons c a ih =>
    simp only [List.cons_append, split_cons, ih, splitStep]
    split
    · rfl
    · -- the character goes in front of the first piece of the rest
      cases hs : split sep a with
      | nil => exact absurd hs (split_ne_nil sep a)
      | cons piece rest => rfl

/-- No piece holds the separator. -/
theorem notMem_of_mem_split {sep : Char} {t piece : Text} (h : piece ∈ split sep t) :
    sep ∉ piece := by
  induction t generalizing piece with
  | nil =>
    rw [split_nil, List.mem_singleton] at h
    simp [h]
  | cons c t ih =>
    simp only [split_cons, splitStep] at h
    split at h
    · rcases List.mem_cons.1 h with rfl | h
      · simp
      · exact ih h
    · rename_i hc
      cases hs : split sep t with
      | nil => exact absurd hs (split_ne_nil sep t)
      | cons first rest =>
        rw [hs] at h ih
        rcases List.mem_cons.1 h with rfl | h
        · simp only [List.mem_cons, not_or]
          exact ⟨Ne.symm hc, ih List.mem_cons_self⟩
        · exact ih (List.mem_cons_of_mem _ h)

@[simp] theorem join_singleton (sep piece : Text) : join sep [piece] = piece := rfl

/-- The first of several pieces stands in front of a separator. -/
theorem join_cons {sep piece : Text} {pieces : List Text} (h : pieces ≠ []) :
    join sep (piece :: pieces) = piece ++ sep ++ join sep pieces := by
  cases pieces with
  | nil => exact absurd rfl h
  | cons next rest => rfl

/-- Putting together two runs of pieces. -/
theorem join_append {sep : Text} {front back : List Text} (hfront : front ≠ [])
    (hback : back ≠ []) : join sep (front ++ back) = join sep front ++ sep ++ join sep back := by
  induction front with
  | nil => exact absurd rfl hfront
  | cons piece front ih =>
    by_cases hnil : front = []
    · subst hnil
      rw [List.singleton_append, join_cons hback, join_singleton]
    · rw [List.cons_append, join_cons (by simp [hback]), join_cons hnil, ih hnil]
      simp only [List.append_assoc]

theorem join_append_singleton {sep piece : Text} {pieces : List Text} (h : pieces ≠ []) :
    join sep (pieces ++ [piece]) = join sep pieces ++ sep ++ piece := by
  rw [join_append h (by simp), join_singleton]

/-- Cutting joined texts at the separator cuts each of them. -/
theorem split_join_flatMap {sep : Char} {texts : List Text} (h : texts ≠ []) :
    split sep (join [sep] texts) = texts.flatMap (split sep) := by
  induction texts with
  | nil => exact absurd rfl h
  | cons t rest ih =>
    rw [List.flatMap_cons]
    by_cases hnil : rest = []
    · subst hnil
      rw [join_singleton, List.flatMap_nil, List.append_nil]
    · rw [join_cons hnil, List.append_assoc, List.singleton_append, split_append, ih hnil]

/-- Joined pieces that do not hold the separator come apart again. -/
theorem split_join {sep : Char} {pieces : List Text} (hne : pieces ≠ [])
    (h : ∀ piece ∈ pieces, sep ∉ piece) : split sep (join [sep] pieces) = pieces := by
  have hmap : pieces.map (split sep) = pieces.map fun piece => [piece] :=
    List.map_congr_left fun piece hpiece => split_of_notMem (h piece hpiece)
  rw [split_join_flatMap hne, List.flatMap_def, hmap, ← List.flatMap_def, List.flatMap_singleton']

/-- Every character of joined texts is one of theirs or of the separator. -/
theorem mem_of_mem_join {sep : Text} {texts : List Text} {c : Char} (h : c ∈ join sep texts) :
    c ∈ sep ∨ ∃ t ∈ texts, c ∈ t := by
  induction texts with
  | nil => simp [join] at h
  | cons t rest ih =>
    by_cases hnil : rest = []
    · subst hnil
      exact .inr ⟨t, List.mem_cons_self, h⟩
    · rw [join_cons hnil, List.mem_append, List.mem_append] at h
      rcases h with (h | h) | h
      · exact .inr ⟨t, List.mem_cons_self, h⟩
      · exact .inl h
      · rcases ih h with hsep | ⟨u, hu, hc⟩
        · exact .inl hsep
        · exact .inr ⟨u, List.mem_cons_of_mem _ hu, hc⟩

/-- Joining texts keeps their characters. -/
theorem mem_join_of_mem {sep t : Text} {texts : List Text} {c : Char} (ht : t ∈ texts)
    (hc : c ∈ t) : c ∈ join sep texts := by
  induction texts with
  | nil => exact absurd ht List.not_mem_nil
  | cons first rest ih =>
    by_cases hnil : rest = []
    · subst hnil
      rwa [join_singleton, ← List.mem_singleton.1 ht]
    · rw [join_cons hnil, List.mem_append, List.mem_append]
      rcases List.mem_cons.1 ht with rfl | ht
      · exact .inl (.inl hc)
      · exact .inr (ih ht)

/-- Every character of a piece is one of the text. -/
theorem mem_of_mem_split {sep c : Char} {t piece : Text} (hpiece : piece ∈ split sep t)
    (hc : c ∈ piece) : c ∈ t := by
  rw [← join_split sep t]
  exact mem_join_of_mem hpiece hc

/-! ## What stands before an end -/

/-- What is left of a list once its end is dropped, last element first, is its front. -/
theorem eq_of_dropWhile_reverse {α : Type} {test : α → Bool} {l front : List α}
    (h : l.reverse.dropWhile test = front) :
    ∃ tail, l = front.reverse ++ tail ∧ ∀ x ∈ tail, test x = true := by
  refine ⟨(l.reverse.takeWhile test).reverse, ?_, ?_⟩
  · have hsplit : l.reverse.takeWhile test ++ front = l.reverse := by
      rw [← h, List.takeWhile_append_dropWhile]
    have hreverse := congrArg List.reverse hsplit
    rw [List.reverse_append, List.reverse_reverse] at hreverse
    exact hreverse.symm
  · intro x hx
    exact List.all_eq_true.1 List.all_takeWhile x (List.mem_reverse.1 hx)

/-- The text before the last occurrence of a character. -/
theorem beforeLast_append {c : Char} {a b : Text} (h : c ∉ b) :
    beforeLast c (a ++ c :: b) = some a := by
  have hreverse : (a ++ c :: b).reverse = b.reverse ++ c :: a.reverse := by simp
  have hdrop : (b.reverse ++ c :: a.reverse).dropWhile (· ≠ c) = c :: a.reverse := by
    have hb : ∀ x ∈ b.reverse, decide (x ≠ c) = true := by
      intro x hx
      have hxc : x ≠ c := fun hxc => h (hxc ▸ List.mem_reverse.1 hx)
      exact decide_eq_true hxc
    rw [List.dropWhile_append_of_pos hb]
    simp
  rw [beforeLast, hreverse, hdrop]
  simp

/-- What stands before the last occurrence of a character has none of it behind. -/
theorem beforeLast_eq_some_iff {c : Char} {t before : Text} :
    beforeLast c t = some before ↔ ∃ after, c ∉ after ∧ t = before ++ c :: after := by
  constructor
  · intro h
    cases hdrop : t.reverse.dropWhile (· ≠ c) with
    | nil =>
      rw [beforeLast, hdrop] at h
      cases h
    | cons d front =>
      rw [beforeLast, hdrop] at h
      obtain rfl : front.reverse = before := Option.some.inj h
      obtain ⟨tail, ht, htail⟩ := eq_of_dropWhile_reverse hdrop
      have hd := List.head?_dropWhile_not (· ≠ c) t.reverse
      rw [hdrop] at hd
      obtain rfl : d = c := by simpa using hd
      exact ⟨tail, fun hmem => by simpa using htail d hmem, by rw [ht]; simp⟩
  · rintro ⟨after, hafter, rfl⟩
    exact beforeLast_append hafter

/-- A character that does not occur has nothing before it. -/
theorem beforeLast_eq_none_iff {c : Char} {t : Text} : beforeLast c t = none ↔ c ∉ t := by
  constructor
  · intro h hmem
    cases hdrop : t.reverse.dropWhile (· ≠ c) with
    | nil =>
      obtain ⟨tail, ht, htail⟩ := eq_of_dropWhile_reverse hdrop
      rw [List.reverse_nil, List.nil_append] at ht
      simpa using htail c (ht ▸ hmem)
    | cons d front =>
      rw [beforeLast, hdrop] at h
      cases h
  · intro h
    refine Option.eq_none_iff_forall_ne_some.2 fun before hbefore => ?_
    obtain ⟨after, -, rfl⟩ := beforeLast_eq_some_iff.1 hbefore
    exact h (List.mem_append_right _ List.mem_cons_self)

/-! ## First occurrences -/

/-- The pattern occurs nowhere earlier than right after `before`. -/
def IsFirst (pattern before after : Text) : Prop :=
  ∀ b a, before ++ pattern ++ after = b ++ pattern ++ a → before.length ≤ b.length

/-- An empty text before a pattern leaves no room for an earlier occurrence. -/
theorem isFirst_nil (pattern after : Text) : IsFirst pattern [] after :=
  fun _ _ _ => Nat.zero_le _

/-- A text is cut at the first occurrence of the pattern. -/
theorem isFirst_of_cutAt {pattern t before after : Text}
    (h : cutAt pattern t = some (before, after)) : IsFirst pattern before after := by
  induction t generalizing before after with
  | nil =>
    simp only [cutAt] at h
    split at h
    · simp only [Option.some.injEq, Prod.mk.injEq] at h
      obtain ⟨rfl, rfl⟩ := h
      exact isFirst_nil _ _
    · simp at h
  | cons c rest ih =>
    have ht := eq_of_cutAt h
    simp only [cutAt] at h
    split at h
    · simp only [Option.some.injEq, Prod.mk.injEq] at h
      obtain ⟨rfl, rfl⟩ := h
      exact isFirst_nil _ _
    · rename_i hprefix
      simp only [Option.map_eq_some_iff, Prod.exists, Prod.mk.injEq] at h
      obtain ⟨b, a, hcut, rfl, rfl⟩ := h
      intro b' a' heq
      rw [← ht] at heq
      -- an earlier occurrence is right here or one in the rest
      cases b' with
      | nil => exact absurd (List.isPrefixOf_iff_prefix.2 ⟨a', by simpa using heq.symm⟩) hprefix
      | cons c' b' =>
        simp only [List.cons_append, List.cons.injEq] at heq
        have hrest := eq_of_cutAt hcut
        exact Nat.succ_le_succ (ih hcut b' a' (by rw [← hrest]; exact heq.2))

/-- A pattern that occurs is found. -/
theorem cutAt_ne_none {pattern before after : Text} :
    cutAt pattern (before ++ pattern ++ after) ≠ none := by
  induction before with
  | nil =>
    cases hpattern : pattern ++ after with
    | nil =>
      obtain ⟨rfl, rfl⟩ := List.append_eq_nil_iff.1 hpattern
      simp [cutAt]
    | cons c rest =>
      have hprefix : pattern.isPrefixOf (c :: rest) = true :=
        List.isPrefixOf_iff_prefix.2 ⟨after, hpattern⟩
      rw [List.nil_append, hpattern, cutAt, if_pos hprefix]
      simp
  | cons c before ih =>
    rw [List.cons_append, List.cons_append, cutAt]
    split
    · simp
    · simpa using ih

/-- A text is cut in two at a pattern exactly when the pattern stands between the two sides and
nowhere earlier. -/
theorem cutAt_eq_some_iff {pattern t before after : Text} :
    cutAt pattern t = some (before, after) ↔
      t = before ++ pattern ++ after ∧ IsFirst pattern before after := by
  constructor
  · intro h
    exact ⟨eq_of_cutAt h, isFirst_of_cutAt h⟩
  · rintro ⟨rfl, hfirst⟩
    cases hcut : cutAt pattern (before ++ pattern ++ after) with
    | none => exact absurd hcut cutAt_ne_none
    | some sides =>
      obtain ⟨b, a⟩ := sides
      have heq := eq_of_cutAt hcut
      -- each of two first occurrences is no later than the other
      have hlength : before.length = b.length :=
        Nat.le_antisymm (hfirst b a heq) (isFirst_of_cutAt hcut before after heq.symm)
      rw [List.append_assoc, List.append_assoc] at heq
      obtain ⟨rfl, hrest⟩ := List.append_inj heq hlength
      rw [List.append_cancel_left hrest]

/-- A text is cut in two at a character exactly when the character stands between the two sides and
is not in the first one. -/
theorem cutAt_singleton_eq_some_iff {c : Char} {t before after : Text} :
    cutAt [c] t = some (before, after) ↔ t = before ++ c :: after ∧ c ∉ before := by
  rw [cutAt_eq_some_iff, List.append_assoc, List.singleton_append]
  refine and_congr_right fun _ => ⟨fun hfirst hmem => ?_, fun hfree b a heq => ?_⟩
  · obtain ⟨front, back, rfl⟩ := List.append_of_mem hmem
    have hlength := hfirst front (back ++ c :: after) (by simp)
    rw [List.length_append, List.length_cons] at hlength
    omega
  · rw [List.append_assoc, List.append_assoc, List.singleton_append, List.singleton_append] at heq
    refine Nat.le_of_not_lt fun hlt => ?_
    have hb : (before ++ c :: after)[b.length]? = some c := by rw [heq]; simp
    rw [List.getElem?_append_left (by omega)] at hb
    exact hfree (List.mem_of_getElem? hb)

/-- A pattern occurs in a text when the text has it somewhere. -/
theorem contains_iff {t pattern : Text} : contains t pattern = true ↔ pattern <:+: t := by
  constructor
  · intro h
    obtain ⟨⟨before, after⟩, hcut⟩ := Option.isSome_iff_exists.1 h
    exact ⟨before, after, (eq_of_cutAt hcut).symm⟩
  · intro ⟨before, after, h⟩
    have hcut : cutAt pattern t ≠ none := h ▸ cutAt_ne_none
    exact Option.isSome_iff_ne_none.2 hcut

theorem contains_eq_false_iff {t pattern : Text} :
    contains t pattern = false ↔ ¬ pattern <:+: t := by
  rw [← contains_iff, Bool.not_eq_true]

/-- A text is not cut exactly when the pattern does not occur. -/
theorem cutAt_eq_none_iff {t pattern : Text} : cutAt pattern t = none ↔ ¬ pattern <:+: t := by
  rw [← contains_eq_false_iff, contains, Option.isSome_eq_false_iff, Option.isNone_iff_eq_none]

/-- An occurrence of a pattern does not reach across a character that the pattern does not have. -/
theorem occurs_apart {pattern before after b a : Text} {sep : Char} (hsep : sep ∉ pattern)
    (h : before ++ sep :: after = b ++ pattern ++ a) :
    (∃ a', before = b ++ pattern ++ a') ∨ ∃ b', b = before ++ sep :: b' ∧
      after = b' ++ pattern ++ a := by
  rw [List.append_assoc, List.append_eq_append_iff] at h
  rcases h with ⟨as, hb, hafter⟩ | ⟨bs, hbefore, hrest⟩
  · -- the occurrence starts behind `before`, so `sep` is in front of it unless it starts with `sep`
    cases as with
    | nil =>
      cases pattern with
      | nil =>
        rw [List.append_nil] at hb
        exact .inl ⟨[], by simp [hb]⟩
      | cons c rest =>
        have hc : sep = c := (List.cons.inj hafter).1
        exact absurd (hc ▸ List.mem_cons_self) hsep
    | cons c as =>
      obtain ⟨hc, htail⟩ := List.cons.inj hafter
      subst hc
      exact .inr ⟨as, hb, htail.trans (List.append_assoc _ _ _).symm⟩
  · rw [List.append_eq_append_iff] at hrest
    rcases hrest with ⟨cs, hbs, -⟩ | ⟨cs, hpattern, hcons⟩
    · exact .inl ⟨cs, by rw [hbefore, hbs, List.append_assoc]⟩
    · -- here the pattern goes on behind `before`, where `sep` stands
      cases cs with
      | nil =>
        rw [List.append_nil] at hpattern
        exact .inl ⟨[], by rw [hbefore, hpattern, List.append_nil]⟩
      | cons c cs =>
        have hc : sep = c := (List.cons.inj hcons).1
        exact absurd (hpattern ▸ hc ▸ List.mem_append_right _ List.mem_cons_self) hsep

/-- A pattern that lacks a character occurs on one side of it. -/
theorem infix_apart {pattern before after : Text} {sep : Char} (hsep : sep ∉ pattern)
    (h : pattern <:+: before ++ sep :: after) : pattern <:+: before ∨ pattern <:+: after := by
  obtain ⟨b, a, hocc⟩ := h
  rcases occurs_apart hsep hocc.symm with ⟨a', hbefore⟩ | ⟨b', -, hafter⟩
  · exact .inl ⟨b, a', hbefore.symm⟩
  · exact .inr ⟨b', a, hafter.symm⟩

/-- A pattern that lacks a character and occurs before it is cut at as if nothing followed. -/
theorem cutAt_apart_of_some {pattern front back before after : Text} {sep : Char}
    (hsep : sep ∉ pattern) (h : cutAt pattern front = some (before, after)) :
    cutAt pattern (front ++ sep :: back) = some (before, after ++ sep :: back) := by
  obtain ⟨hfront, hfirst⟩ := cutAt_eq_some_iff.1 h
  apply cutAt_eq_some_iff.2
  refine ⟨by rw [hfront, List.append_assoc _ after], fun b a heq => ?_⟩
  rw [← List.append_assoc, ← hfront] at heq
  rcases occurs_apart hsep heq with ⟨a', hb⟩ | ⟨b', hb, -⟩
  · exact hfirst b a' (hfront.symm.trans hb)
  · -- an occurrence behind the character is later than all that stands before it
    have hlength := congrArg List.length hb
    rw [List.length_append, hfront, List.length_append, List.length_append] at hlength
    omega

/-- One that does not occur before the character is cut at behind it. -/
theorem cutAt_apart_of_none {pattern front : Text} {sep : Char} (hsep : sep ∉ pattern)
    (h : cutAt pattern front = none) (back : Text) :
    cutAt pattern (front ++ sep :: back)
      = (cutAt pattern back).map fun (before, after) => (front ++ sep :: before, after) := by
  have hfree := cutAt_eq_none_iff.1 h
  cases hback : cutAt pattern back with
  | none =>
    apply cutAt_eq_none_iff.2
    intro hoccurs
    exact (infix_apart hsep hoccurs).elim hfree (cutAt_eq_none_iff.1 hback)
  | some sides =>
    obtain ⟨before, after⟩ := sides
    obtain ⟨rfl, hfirst⟩ := cutAt_eq_some_iff.1 hback
    apply cutAt_eq_some_iff.2
    refine ⟨by simp, fun b a heq => ?_⟩
    rw [List.append_assoc, List.append_assoc, List.cons_append, ← List.append_assoc before] at heq
    rcases occurs_apart hsep heq with ⟨a', hb⟩ | ⟨b', rfl, hb⟩
    · exact absurd ⟨b, a', hb.symm⟩ hfree
    · have hlength := hfirst b' a hb
      rw [List.length_append, List.length_append, List.length_cons, List.length_cons]
      omega

end InterfacePackage.Text
