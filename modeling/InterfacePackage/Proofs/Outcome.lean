/-!
# Outcomes of actions

An action that changes a state and may fail half-way comes to a result or a failure, and to a state
in either case. The equations here say what that is for an action put together from others, and
`Ensures` states what holds of it from any state that meets a condition.
-/

namespace InterfacePackage

variable {ε σ α β : Type}

/-- What an action comes to: its result or failure, and the state it leaves. -/
def outcome (act : ExceptT ε (StateM σ) α) (s : σ) : Except ε α × σ := act.run.run s

@[simp] theorem outcome_pure (a : α) (s : σ) :
    outcome (pure a : ExceptT ε (StateM σ) α) s = (.ok a, s) := rfl

@[simp] theorem outcome_throw (e : ε) (s : σ) :
    outcome (throw e : ExceptT ε (StateM σ) α) s = (.error e, s) := rfl

@[simp] theorem outcome_get (s : σ) : outcome (get : ExceptT ε (StateM σ) σ) s = (.ok s, s) := rfl

@[simp] theorem outcome_set (s' s : σ) :
    outcome (set s' : ExceptT ε (StateM σ) PUnit) s = (.ok ⟨⟩, s') := rfl

@[simp] theorem outcome_modify (f : σ → σ) (s : σ) :
    outcome (modify f : ExceptT ε (StateM σ) PUnit) s = (.ok ⟨⟩, f s) := rfl

/-- An action that goes on with the result of another. -/
theorem outcome_bind (act : ExceptT ε (StateM σ) α) (next : α → ExceptT ε (StateM σ) β) (s : σ) :
    outcome (act >>= next) s = match outcome act s with
      | (.ok a, s') => outcome (next a) s'
      | (.error e, s') => (.error e, s') := by
  unfold outcome
  simp only [ExceptT.run_bind, StateT.run_bind]
  cases h : act.run.run s with
  | mk result s' =>
    cases result <;> rfl

/-- An action that goes on with the result of another succeeds when both do, one after the other. -/
theorem outcome_bind_eq_ok {act : ExceptT ε (StateM σ) α} {next : α → ExceptT ε (StateM σ) β}
    {s s' : σ} {b : β} :
    outcome (act >>= next) s = (.ok b, s') ↔
      ∃ a s₁, outcome act s = (.ok a, s₁) ∧ outcome (next a) s₁ = (.ok b, s') := by
  rw [outcome_bind]
  cases outcome act s with
  | mk result s₁ =>
    cases result with
    | ok a =>
      refine ⟨fun h => ⟨a, s₁, rfl, h⟩, ?_⟩
      rintro ⟨a', s₁', hact, hnext⟩
      cases hact
      exact hnext
    | error e =>
      refine ⟨nofun, ?_⟩
      rintro ⟨a', s₁', hact, -⟩
      cases hact

/-- It fails when the first one does, or the second one after it. -/
theorem outcome_bind_eq_error {act : ExceptT ε (StateM σ) α} {next : α → ExceptT ε (StateM σ) β}
    {s s' : σ} {e : ε} :
    outcome (act >>= next) s = (.error e, s') ↔ outcome act s = (.error e, s') ∨
      ∃ a s₁, outcome act s = (.ok a, s₁) ∧ outcome (next a) s₁ = (.error e, s') := by
  rw [outcome_bind]
  cases outcome act s with
  | mk result s₁ =>
    cases result with
    | ok a =>
      refine ⟨fun h => .inr ⟨a, s₁, rfl, h⟩, ?_⟩
      rintro (hact | ⟨a', s₁', hact, hnext⟩)
      · cases hact
      · cases hact
        exact hnext
    | error e' =>
      constructor
      · rintro ⟨⟩
        exact .inl rfl
      · rintro (hact | ⟨a', s₁', hact, -⟩)
        · cases hact
          rfl
        · cases hact

/-- When the first one fails, so does the whole. -/
theorem outcome_bind_of_error {act : ExceptT ε (StateM σ) α} {next : α → ExceptT ε (StateM σ) β}
    {s s' : σ} {e : ε} (h : outcome act s = (.error e, s')) :
    outcome (act >>= next) s = (.error e, s') :=
  outcome_bind_eq_error.2 (.inl h)

/-- When the first one succeeds, the second one goes on. -/
theorem outcome_bind_of_ok {act : ExceptT ε (StateM σ) α} {next : α → ExceptT ε (StateM σ) β}
    {s s' : σ} {a : α} (h : outcome act s = (.ok a, s')) :
    outcome (act >>= next) s = outcome (next a) s' := by
  rw [outcome_bind, h]

/-! ## Lists -/

/-- What comes of all elements of a list, if none of them fails. -/
theorem mapM_eq_ok_iff {f : α → Except ε β} {xs : List α} {ys : List β} :
    xs.mapM f = .ok ys ↔ xs.map f = ys.map .ok := by
  induction xs generalizing ys with
  | nil => cases ys <;> simp [List.mapM_nil, pure, Except.pure]
  | cons x xs ih =>
    rw [List.mapM_cons, List.map_cons]
    cases hx : f x with
    | error e => cases ys <;> simp [bind, Except.bind]
    | ok y =>
      cases hxs : xs.mapM f with
      | error e =>
        cases ys with
        | nil => simp [bind, Except.bind]
        | cons z ys =>
          -- a failure further on rules out every list of results
          have hne : xs.map f ≠ ys.map .ok := fun h => by
            rw [ih.2 h] at hxs
            cases hxs
          simp [bind, Except.bind, hne]
      | ok zs =>
        have hzs := ih.1 hxs
        cases ys with
        | nil => simp [bind, Except.bind, pure, Except.pure]
        | cons z ys =>
          rw [List.map_cons, hzs, List.cons.injEq,
            List.map_inj_right fun _ _ h => Except.ok.inj h]
          simp [bind, Except.bind, pure, Except.pure]

/-- Where a list fails, one of its elements does. -/
theorem exists_of_mapM_eq_error {f : α → Except ε β} {xs : List α} {e : ε}
    (h : xs.mapM f = .error e) : ∃ x ∈ xs, f x = .error e := by
  induction xs with
  | nil => cases h
  | cons x xs ih =>
    rw [List.mapM_cons] at h
    cases hx : f x with
    | error e' =>
      rw [hx] at h
      cases h
      exact ⟨x, List.mem_cons_self, hx⟩
    | ok y =>
      rw [hx] at h
      cases hxs : xs.mapM f with
      | error e' =>
        rw [hxs] at h
        cases h
        obtain ⟨z, hz, hfail⟩ := ih hxs
        exact ⟨z, List.mem_cons_of_mem _ hz, hfail⟩
      | ok ys =>
        rw [hxs] at h
        cases h

/-- What all elements of a list stand for, if all of them stand for something. -/
theorem mapM_eq_some_iff {f : α → Option β} {xs : List α} {ys : List β} :
    xs.mapM f = some ys ↔ xs.map f = ys.map some := by
  induction xs generalizing ys with
  | nil => cases ys <;> simp
  | cons x xs ih =>
    rw [List.mapM_cons, List.map_cons]
    cases hx : f x with
    | none => cases ys <;> simp
    | some y =>
      cases hxs : xs.mapM f with
      | none =>
        cases ys with
        | nil => simp
        | cons z ys =>
          have hne : xs.map f ≠ ys.map some := fun h => by
            rw [ih.2 h] at hxs
            cases hxs
          simp [hne]
      | some zs =>
        have hzs := ih.1 hxs
        cases ys with
        | nil => simp
        | cons z ys =>
          rw [List.map_cons, hzs, List.cons.injEq,
            List.map_inj_right fun _ _ h => Option.some.inj h]
          simp

/-! ## Conditions -/

/-- From any state that meets `pre`, the action ends with a result and a state that `post` admits,
or with a failure and a state that `fail` admits. -/
def Ensures (pre : σ → Prop) (act : ExceptT ε (StateM σ) α) (post : α → σ → Prop)
    (fail : ε → σ → Prop) : Prop :=
  ∀ s, pre s → match outcome act s with
    | (.ok a, s') => post a s'
    | (.error e, s') => fail e s'

namespace Ensures

variable {pre : σ → Prop} {post : α → σ → Prop} {fail : ε → σ → Prop}
variable {act : ExceptT ε (StateM σ) α}

/-- What is ensured of a successful outcome. -/
theorem ok (h : Ensures pre act post fail) {s s' : σ} {a : α} (hs : pre s)
    (hrun : outcome act s = (.ok a, s')) : post a s' := by
  have hs' := h s hs
  rwa [hrun] at hs'

/-- What is ensured of a failure. -/
theorem error (h : Ensures pre act post fail) {s s' : σ} {e : ε} (hs : pre s)
    (hrun : outcome act s = (.error e, s')) : fail e s' := by
  have hs' := h s hs
  rwa [hrun] at hs'

/-- What is ensured may be asked under a stronger condition, and implies what is weaker. -/
theorem weaken {pre' : σ → Prop} {post' : α → σ → Prop} {fail' : ε → σ → Prop}
    (h : Ensures pre act post fail) (hpre : ∀ s, pre' s → pre s)
    (hpost : ∀ a s, post a s → post' a s) (hfail : ∀ e s, fail e s → fail' e s) :
    Ensures pre' act post' fail' := by
  intro s hs
  have hs' := h s (hpre s hs)
  split <;> rename_i hrun <;> rw [hrun] at hs'
  · exact hpost _ _ hs'
  · exact hfail _ _ hs'

theorem pure {a : α} (h : ∀ s, pre s → post a s) :
    Ensures pre (Pure.pure a : ExceptT ε (StateM σ) α) post fail := fun s hs => h s hs

/-- What holds of every successful outcome is ensured if nothing is asked of a failure. -/
theorem of_ok (h : ∀ s a s', pre s → outcome act s = (.ok a, s') → post a s') :
    Ensures pre act post fun _ _ => True := by
  intro s hs
  split
  · rename_i hrun
    exact h _ _ _ hs hrun
  · trivial

/-- A fact that does not depend on the state may be used on the way. -/
theorem of_fact {fact : Prop} (h : fact → Ensures pre act post fail) :
    Ensures (fun s => fact ∧ pre s) act (fun a s => fact ∧ post a s) fail := by
  intro s hs
  have hs' := h hs.1 s hs.2
  split <;> rename_i hrun <;> rw [hrun] at hs'
  · exact ⟨hs.1, hs'⟩
  · exact hs'

/-- An action followed by another. -/
theorem bind {middle : α → σ → Prop} {next : α → ExceptT ε (StateM σ) β}
    {post : β → σ → Prop} (hact : Ensures pre act middle fail)
    (hnext : ∀ a, Ensures (middle a) (next a) post fail) :
    Ensures pre (act >>= next) post fail := by
  intro s hs
  have hs' := hact s hs
  rw [outcome_bind]
  cases hrun : outcome act s with
  | mk result s' =>
    rw [hrun] at hs'
    cases result with
    | ok a => exact hnext a s' hs'
    | error e => exact hs'

/-- One action for each element of a list, with what is done and what is left in view. -/
theorem forM {γ : Type} {f : γ → ExceptT ε (StateM σ) PUnit} {inv : List γ → List γ → σ → Prop}
    {fail : ε → σ → Prop} (xs : List γ)
    (hf : ∀ done x left, xs = done ++ x :: left →
      Ensures (inv done (x :: left)) (f x) (fun _ => inv (done ++ [x]) left) fail) :
    Ensures (inv [] xs) (xs.forM f) (fun _ => inv xs []) fail := by
  -- the loop may stand anywhere in the list, so the induction is on what is left
  suffices hfrom : ∀ left done, xs = done ++ left →
      Ensures (inv done left) (left.forM f) (fun _ => inv xs []) fail from hfrom xs [] rfl
  intro left
  induction left with
  | nil =>
    intro done hdone
    rw [List.append_nil] at hdone
    subst hdone
    exact pure fun _ h => h
  | cons x left ih =>
    intro done hdone
    refine bind (hf done x left hdone) fun _ => ih (done ++ [x]) ?_
    rw [hdone]
    simp

/-- One result for each element of a list, with what is done, its results and what is left in
view. -/
theorem mapM {γ : Type} {f : γ → ExceptT ε (StateM σ) β}
    {inv : List γ → List β → List γ → σ → Prop} {fail : ε → σ → Prop} (xs : List γ)
    (hf : ∀ done results x left, xs = done ++ x :: left →
      Ensures (inv done results (x :: left)) (f x)
        (fun y => inv (done ++ [x]) (results ++ [y]) left) fail) :
    Ensures (inv [] [] xs) (xs.mapM f) (fun ys => inv xs ys []) fail := by
  -- as for `forM`, with the results that are already there in front
  suffices hfrom : ∀ left done results, xs = done ++ left →
      Ensures (inv done results left) (left.mapM f)
        (fun ys => inv xs (results ++ ys) []) fail from hfrom xs [] [] rfl
  intro left
  induction left with
  | nil =>
    intro done results hdone
    rw [List.append_nil] at hdone
    subst hdone
    rw [List.mapM_nil]
    exact pure fun _ h => by rwa [List.append_nil]
  | cons x left ih =>
    intro done results hdone
    rw [List.mapM_cons]
    refine bind (hf done results x left hdone) fun y => ?_
    refine bind (ih (done ++ [x]) (results ++ [y]) (by rw [hdone]; simp)) fun ys => ?_
    exact pure fun _ h => by rwa [List.append_assoc, List.singleton_append] at h

end Ensures

end InterfacePackage
