import InterfacePackage.Export.Script
import InterfacePackage.Proofs.Export.Action
import Mathlib.Data.List.Forall2
import Mathlib.Order.Defs.Unbundled

/-!
# What scripts side by side come to

Scripts that run side by side find the session as others have left it. So what is asked of a script
is asked of each of its steps, from any session that the others may have come to: every step keeps
an invariant and goes on by a preorder on sessions, and may rely on all others to do so. Whatever
the turns, the whole run then keeps both, and leaves what each script is to leave. Main statements:
`sideBySide_nil` (without turns the scripts run one after the other), `sideBySide_yields` and, where
only an invariant is in question, `Script.Keeps.sideBySide`.
-/

namespace InterfacePackage.Export

variable {α β γ : Type} {s s' : Session}

/-! ## Lists that correspond -/

/-- An element of the first of two lists that correspond has a counterpart in the second. -/
theorem exists_of_forall₂ {R : α → β → Prop} {xs : List α} {ys : List β}
    (h : List.Forall₂ R xs ys) {x : α} (hx : x ∈ xs) : ∃ y ∈ ys, R x y := by
  induction h with
  | nil => cases hx
  | cons hxy _ ih =>
    rcases List.mem_cons.1 hx with rfl | hx
    · exact ⟨_, List.mem_cons_self, hxy⟩
    · obtain ⟨y, hy, hxy⟩ := ih hx
      exact ⟨y, List.mem_cons_of_mem _ hy, hxy⟩

/-- Lists go on corresponding, if only by another relation, when one element is exchanged. -/
theorem forall₂_set {R R' : α → β → Prop} {xs : List α} {ys : List β} (h : List.Forall₂ R xs ys)
    (himp : ∀ x y, R x y → R' x y) {k : Nat} {y z : β} (hy : ys[k]? = some y)
    (hz : ∀ x, R x y → R' x z) : List.Forall₂ R' xs (ys.set k z) := by
  induction h generalizing k with
  | nil => cases hy
  | cons hxy hrest ih =>
    cases k with
    | zero =>
      cases hy
      exact .cons (hz _ hxy) (hrest.imp fun _ _ => himp _ _)
    | succ k => exact .cons (himp _ _ hxy) (ih hy)

/-! ## One script -/

namespace Script

/-- A script that takes a step goes on from there. -/
theorem outcome_alone_step (leave : Session → Session) (next : Session → Script α) (s : Session) :
    outcome (step leave next).alone s = outcome (next s).alone (leave s) := rfl

@[simp] theorem alone_once (act : Action α) : (once act).alone = act := by
  refine funext fun s => ?_
  change (ofResult (act s).1).alone (act s).2 = act s
  cases act s with
  | mk result s' => cases result <;> rfl

/-- One script after the other runs as one action after the other. -/
theorem alone_bind (x : Script α) (f : α → Script β) :
    (x >>= f).alone = x.alone >>= fun a => (f a).alone := by
  induction x with
  | done a => rfl
  | fail e => rfl
  | step leave next ih => exact funext fun s => congrFun (ih s) (leave s)

end Script

/-! ## What is asked of a script -/

/-- What comes of a state has kept the invariant and gone on by `keeps`, with a result and what is
to hold then, or with such a failure. -/
structure Yields {ε σ : Type} (inv : σ → Prop) (keeps : σ → σ → Prop) (post : α → σ → Prop)
    (fail : ε → Prop) (s : σ) (out : Except ε α × σ) : Prop where
  invariant : inv out.2
  kept : keeps s out.2
  result : match out.1 with
    | .ok a => post a out.2
    | .error e => fail e

section

variable (inv : Session → Prop) (keeps : Session → Session → Prop) (post : α → Session → Prop)
  (fail : Failure → Prop)

/-- From a session on, while all others keep the invariant and go on by `keeps`, so does every step
of the script, `post` holds of its result from then on, and `fail` of its failure. -/
def Script.Meets : Script α → Session → Prop
  | .done a, s => ∀ s', inv s' → keeps s s' → post a s'
  | .fail e, _ => fail e
  | .step leave next, s => ∀ s', inv s' → keeps s s' →
    (inv (leave s') ∧ keeps s' (leave s')) ∧ (next s').Meets (leave s')

end

variable {inv : Session → Prop} {keeps : Session → Session → Prop} {post : α → Session → Prop}
  {fail : Failure → Prop}

/-- What comes of a session comes of an earlier one as well. -/
theorem Yields.earlier [IsPreorder Session keeps] {out : Except Failure α × Session}
    (h : Yields inv keeps post fail s' out) (hs : keeps s s') : Yields inv keeps post fail s out :=
  ⟨h.invariant, trans_of keeps hs h.kept, h.result⟩

/-- More may be said of a result, in view of what it is. -/
theorem Yields.imp {out : Except Failure α × Session} (h : Yields inv keeps post fail s out)
    {post' : α → Session → Prop} (hpost : ∀ a, out.1 = .ok a → post a out.2 → post' a out.2) :
    Yields inv keeps post' fail s out := by
  obtain ⟨result, s'⟩ := out
  cases result with
  | ok a => exact ⟨h.invariant, h.kept, hpost a rfl h.result⟩
  | error e => exact ⟨h.invariant, h.kept, h.result⟩

namespace Script.Meets

variable {x : Script α}

/-- What is asked of a result or a failure may be less. -/
theorem weaken (h : x.Meets inv keeps post fail s) {post' : α → Session → Prop}
    {fail' : Failure → Prop} (hpost : ∀ a s', post a s' → post' a s')
    (hfail : ∀ e, fail e → fail' e) : x.Meets inv keeps post' fail' s := by
  induction x generalizing s with
  | done a => exact fun s' hinv hkeeps => hpost a s' (h s' hinv hkeeps)
  | fail e => exact hfail e h
  | step leave next ih =>
    exact fun s' hinv hkeeps => ⟨(h s' hinv hkeeps).1, ih s' (h s' hinv hkeeps).2⟩

/-- An action that is one step. -/
theorem once {act : Action α} (h : ∀ s', inv s' → keeps s s' →
    Yields inv keeps (fun a s'' => ∀ s₁, inv s₁ → keeps s'' s₁ → post a s₁) fail s'
      (outcome act s')) : (Script.once act).Meets inv keeps post fail s := by
  intro s' hinv hkeeps
  obtain ⟨hinv', hkept, hresult⟩ := h s' hinv hkeeps
  refine ⟨⟨hinv', hkept⟩, ?_⟩
  change (ofResult (outcome act s').1).Meets inv keeps post fail (outcome act s').2
  cases hrun : (outcome act s').1 with
  | ok a =>
    rw [hrun] at hresult
    exact hresult
  | error e =>
    rw [hrun] at hresult
    exact hresult

variable [IsPreorder Session keeps]

/-- What is asked of a script can be asked of it later as well. -/
theorem later (h : x.Meets inv keeps post fail s) (hs : keeps s s') :
    x.Meets inv keeps post fail s' := by
  cases x with
  | done a => exact fun s'' hinv hkeeps => h s'' hinv (trans_of keeps hs hkeeps)
  | fail e => exact h
  | step leave next => exact fun s'' hinv hkeeps => h s'' hinv (trans_of keeps hs hkeeps)

/-- One script after another: the second one may rely on what the first one leaves. -/
theorem bind {f : α → Script β} {post' : β → Session → Prop} (h : x.Meets inv keeps post fail s)
    (hs : inv s)
    (hnext : ∀ a s', inv s' → keeps s s' → post a s' → (f a).Meets inv keeps post' fail s') :
    (x >>= f).Meets inv keeps post' fail s := by
  induction x generalizing s with
  | done a => exact hnext a s hs (refl_of keeps s) (h s hs (refl_of keeps s))
  | fail e => exact h
  | step leave next ih =>
    intro s' hinv hkeeps
    obtain ⟨⟨hinv', hkeeps'⟩, hrest⟩ := h s' hinv hkeeps
    refine ⟨⟨hinv', hkeeps'⟩, ih s' hrest hinv' fun a s'' hs'' hon => ?_⟩
    exact hnext a s'' hs'' (trans_of keeps hkeeps (trans_of keeps hkeeps' hon))

/-- A script that runs with nothing in between. -/
theorem alone (h : x.Meets inv keeps post fail s) (hs : inv s) :
    Yields inv keeps (fun a s' => ∀ s₁, inv s₁ → keeps s' s₁ → post a s₁) fail s
      (outcome x.alone s) := by
  induction x generalizing s with
  | done a => exact ⟨hs, refl_of keeps s, h⟩
  | fail e => exact ⟨hs, refl_of keeps s, h⟩
  | step leave next ih =>
    obtain ⟨⟨hinv, hkeeps⟩, hrest⟩ := h s hs (refl_of keeps s)
    rw [outcome_alone_step]
    exact (ih s hrest hinv).earlier hkeeps

end Script.Meets

/-! ## Work completed -/

section

variable {w : Worker α} {workers left : List (Worker α)} {failure : Option Failure}

/-- A script that is completed goes on from where it has come to, and the others after it. -/
theorem completeWork_of_due (hdue : (w.begun || failure.isNone) = true) (s : Session) :
    (completeWork (w :: left) failure).run s = match outcome w.script.alone s with
      | (.ok a, s') => ((completeWork left failure).run s').map (Except.map (a :: ·)) id
      | (.error e, s') => (completeWork left (failure <|> some e)).run s' := by
  have hrun : StateT.run (ExceptT.run w.script.alone) s = outcome w.script.alone s := rfl
  rw [completeWork, if_pos hdue, StateT.run_bind, hrun]
  cases outcome w.script.alone s with
  | mk result s' => cases result <;> rfl

/-- One that is not to begin is left out. -/
theorem completeWork_of_idle (hidle : ¬ (w.begun || failure.isNone) = true) :
    completeWork (w :: left) failure = completeWork left failure := by
  rw [completeWork, if_neg hidle]

/-- When a failure is reported, nothing is begun any more. -/
theorem completeWork_of_failure (hidle : ∀ w ∈ workers, w.begun = false) (e : Failure)
    (s : Session) : (completeWork workers (some e)).run s = (.error e, s) := by
  induction workers with
  | nil => rfl
  | cons w left ih =>
    rw [List.forall_mem_cons] at hidle
    rw [completeWork_of_idle (by simp [hidle.1]), ih hidle.2]

/-- Without turns scripts run one after the other, up to the first that fails. -/
theorem sideBySide_nil (scripts : List (Script α)) :
    sideBySide [] scripts = scripts.mapM Script.alone := by
  induction scripts with
  | nil => rfl
  | cons x xs ih =>
    rw [List.mapM_cons, ← ih]
    refine funext fun s => ?_
    change (completeWork ({ script := x } :: xs.map fun script => { script }) none).run s
      = outcome (x.alone >>= fun a => sideBySide [] xs >>= fun as => pure (a :: as)) s
    rw [completeWork_of_due rfl, outcome_bind]
    dsimp only
    cases outcome x.alone s with
    | mk result s₁ =>
      cases result with
      | ok a =>
        dsimp only
        rw [outcome_bind]
        change Prod.map _ _ (outcome (sideBySide [] xs) s₁) = _
        cases outcome (sideBySide [] xs) s₁ with
        | mk results s₂ => cases results <;> rfl
      | error e =>
        refine completeWork_of_failure (fun w hw => ?_) e s₁
        obtain ⟨script, -, rfl⟩ := List.mem_map.1 hw
        rfl

end

/-! ## Side by side -/

/-- Each script of a list does what is asked of it, and so does what was reported. -/
structure MeetAll (inv : Session → Prop) (keeps : Session → Session → Prop)
    (post : γ → α → Session → Prop) (fail : Failure → Prop) (xs : List γ) (crew : Crew α)
    (s : Session) : Prop where
  invariant : inv s
  scripts : List.Forall₂ (fun x w => w.script.Meets inv keeps (post x) fail s) xs crew.workers
  reported : ∀ e, crew.failure = some e → fail e

section

variable {post : γ → α → Session → Prop} {xs : List γ} {workers : List (Worker α)}
  {failure : Option Failure} {crew : Crew α}

/-- What is reported first is reported. -/
theorem forall_reported {e : Failure} (h : ∀ e, failure = some e → fail e) (he : fail e) :
    ∀ e', (failure <|> some e) = some e' → fail e' := by
  intro e' he'
  cases failure with
  | none =>
    cases he'
    exact he
  | some e₀ => exact h e' he'

variable [IsPreorder Session keeps]

/-- A turn keeps all that is asked. -/
theorem MeetAll.turn (h : MeetAll inv keeps post fail xs crew s) (k : Nat) :
    keeps s ((crew.turn k).run s).2 ∧
      MeetAll inv keeps post fail xs ((crew.turn k).run s).1 ((crew.turn k).run s).2 := by
  unfold Crew.turn
  cases hk : crew.workers[k]? with
  | none => exact ⟨refl_of keeps s, h⟩
  | some w =>
    obtain ⟨script, begun⟩ := w
    cases script with
    | done a => exact ⟨refl_of keeps s, h⟩
    | fail e =>
      obtain ⟨x, -, hfail⟩ := exists_of_forall₂ h.scripts.flip (List.mem_of_getElem? hk)
      exact ⟨refl_of keeps s, h.invariant, h.scripts, forall_reported h.reported hfail⟩
    | step leave next =>
      obtain ⟨x, -, hstep⟩ := exists_of_forall₂ h.scripts.flip (List.mem_of_getElem? hk)
      obtain ⟨⟨hinv, hkept⟩, -⟩ := hstep s h.invariant (refl_of keeps s)
      -- the others are where they were, and may go on from here
      refine ⟨hkept, hinv, forall₂_set h.scripts (fun _ _ hw => hw.later hkept) hk ?_, h.reported⟩
      exact fun x hx => (hx s h.invariant (refl_of keeps s)).2

/-- When the scripts that are left have come to their ends, all has been done that was asked. -/
theorem completeWork_yields (hs : inv s)
    (h : List.Forall₂ (fun x w => w.script.Meets inv keeps (post x) fail s) xs workers)
    (hreported : ∀ e, failure = some e → fail e) :
    Yields inv keeps (fun as s' => failure = none ∧ List.Forall₂ (fun x a => post x a s') xs as)
      fail s ((completeWork workers failure).run s) := by
  induction workers generalizing xs failure s with
  | nil =>
    cases h
    cases failure with
    | none => exact ⟨hs, refl_of keeps s, rfl, .nil⟩
    | some e => exact ⟨hs, refl_of keeps s, hreported e rfl⟩
  | cons w left ih =>
    cases h with
    | @cons x _ xs _ hw hleft =>
      by_cases hdue : (w.begun || failure.isNone) = true
      · obtain ⟨hinv, hkept, hresult⟩ := hw.alone hs
        rw [completeWork_of_due hdue]
        cases hrun : outcome w.script.alone s with
        | mk result s₁ =>
          rw [hrun] at hinv hkept hresult
          have hleft₁ := hleft.imp fun _ _ hw => hw.later hkept
          cases result with
          | ok a =>
            refine Yields.earlier ?_ hkept
            obtain ⟨hinv₂, hkept₂, hrest⟩ := ih hinv hleft₁ hreported
            refine ⟨hinv₂, hkept₂, ?_⟩
            dsimp only
            cases hlast : (completeWork left failure).run s₁ with
            | mk results s₂ =>
              rw [hlast] at hinv₂ hkept₂ hrest
              cases results with
              | ok as => exact ⟨hrest.1, .cons (hresult s₂ hinv₂ hkept₂) hrest.2⟩
              | error e => exact hrest
          | error e =>
            refine ((ih hinv hleft₁ (forall_reported hreported hresult)).imp ?_).earlier hkept
            -- there is no result after a failure
            rintro as - ⟨hnone, -⟩
            cases failure <;> cases hnone
      · rw [completeWork_of_idle hdue]
        refine (ih hs hleft hreported).imp ?_
        rintro as - ⟨hnone, -⟩
        rw [hnone, Option.isNone_none, Bool.or_true] at hdue
        exact absurd rfl hdue

/-- So do the turns of a schedule. -/
theorem MeetAll.turns (h : MeetAll inv keeps post fail xs crew s) (turns : List Nat) :
    keeps s ((turns.foldlM Crew.turn crew).run s).2 ∧
      MeetAll inv keeps post fail xs ((turns.foldlM Crew.turn crew).run s).1
        ((turns.foldlM Crew.turn crew).run s).2 := by
  induction turns generalizing crew s with
  | nil => exact ⟨refl_of keeps s, h⟩
  | cons k turns ih =>
    obtain ⟨hkept, hnext⟩ := h.turn k
    obtain ⟨hrest, hall⟩ := ih hnext
    exact ⟨trans_of keeps hkept hrest, hall⟩

/-- Scripts that run side by side keep together what each of them keeps, whatever the turns, and
when they succeed each has left what it was to leave. -/
theorem sideBySide_yields {script : γ → Script α} (hs : inv s)
    (h : ∀ x ∈ xs, (script x).Meets inv keeps (post x) fail s) (turns : List Nat) :
    Yields inv keeps (fun as s' => List.Forall₂ (fun x a => post x a s') xs as) fail s
      (outcome (sideBySide turns (xs.map script)) s) := by
  have hstart : MeetAll inv keeps post fail xs
      { workers := (xs.map script).map fun script => { script } } s := by
    refine ⟨hs, ?_, nofun⟩
    rw [List.map_map, List.forall₂_map_right_iff, List.forall₂_same]
    exact h
  obtain ⟨hkept, hall⟩ := hstart.turns turns
  exact ((completeWork_yields hall.invariant hall.scripts hall.reported).imp
    fun _ _ h => h.2).earlier hkept

end

/-! ## Steps that change nothing but the tree -/

/-- What a relation says of the trees of sessions. -/
def OnTrees (keeps : FileTree → FileTree → Prop) (s s' : Session) : Prop := keeps s.tree s'.tree

instance {keeps : FileTree → FileTree → Prop} [IsPreorder FileTree keeps] :
    IsPreorder Session (OnTrees keeps) where
  refl s := refl_of keeps s.tree
  trans _ _ _ h h' := trans_of keeps h h'

/-- What is asked of a script as far as trees go. -/
abbrev Script.MeetsOnTrees (inv : FileTree → Prop) (keeps : FileTree → FileTree → Prop)
    (post : α → FileTree → Prop) (fail : Failure → Prop) (x : Script α) (s : Session) : Prop :=
  x.Meets (fun s => inv s.tree) (OnTrees keeps) (fun a s => post a s.tree) fail s

namespace Script.MeetsOnTrees

variable {inv : FileTree → Prop} {keeps : FileTree → FileTree → Prop}
  {post : α → FileTree → Prop}

/-- Something found out in one step. -/
theorem inspect [IsPreorder FileTree keeps] {f : FileTree → Except Failure α}
    (h : ∀ t, inv t → keeps s.tree t → match f t with
      | .ok a => ∀ t₁, inv t₁ → keeps t t₁ → post a t₁
      | .error e => fail e) :
    (Script.once (Export.inspect f)).MeetsOnTrees inv keeps post fail s := by
  refine Meets.once fun s' hinv hkeeps => ?_
  have hend := h s'.tree hinv hkeeps
  rw [outcome_inspect]
  refine ⟨hinv, refl_of keeps s'.tree, ?_⟩
  dsimp only
  cases hf : f s'.tree with
  | ok a =>
    rw [hf] at hend
    exact fun s₁ => hend s₁.tree
  | error e =>
    rw [hf] at hend
    exact hend

/-- A change of the tree in one step. -/
theorem alter {post : FileTree → Prop} {act : FileTree.Action Unit} {wrap : Fault → Failure}
    (h : ∀ t, inv t → keeps s.tree t →
      Yields inv keeps (fun _ t' => ∀ t₁, inv t₁ → keeps t' t₁ → post t₁) (fun e => fail (wrap e)) t
        (outcome act t)) :
    (Script.once (Export.alter act wrap)).MeetsOnTrees inv keeps (fun _ => post) fail s := by
  refine Meets.once fun s' hinv hkeeps => ?_
  obtain ⟨hinv', hkeeps', hresult⟩ := h s'.tree hinv hkeeps
  rw [outcome_alter]
  cases hrun : outcome act s'.tree with
  | mk result t' =>
    rw [hrun] at hinv' hkeeps' hresult
    cases result with
    | ok _ => exact ⟨hinv', hkeeps', fun s₁ => hresult s₁.tree⟩
    | error e => exact ⟨hinv', hkeeps', hresult⟩

/-- A single change in one step. -/
theorem change [IsPreorder FileTree keeps] {post : FileTree → Prop}
    {f : FileTree → Except Fault FileTree} {wrap : Fault → Failure}
    (h : ∀ t, inv t → keeps s.tree t → match f t with
      | .ok t' => inv t' ∧ keeps t t' ∧ ∀ t₁, inv t₁ → keeps t' t₁ → post t₁
      | .error e => fail (wrap e)) :
    (Script.once (Export.alter (FileTree.change f) wrap)).MeetsOnTrees inv keeps (fun _ => post)
      fail s := by
  refine .alter fun t hinv hkeeps => ?_
  have hend := h t hinv hkeeps
  rw [FileTree.outcome_change]
  cases hf : f t with
  | ok t' =>
    rw [hf] at hend
    exact ⟨hend.1, hend.2.1, hend.2.2⟩
  | error e =>
    rw [hf] at hend
    exact ⟨hinv, refl_of keeps t, hend⟩

end Script.MeetsOnTrees

/-! ## Invariants -/

/-- From any session to any other. -/
def Anyhow (_ _ : Session) : Prop := True

instance : IsPreorder Session Anyhow where
  refl _ := trivial
  trans _ _ _ _ _ := trivial

/-- Every step of a script keeps an invariant as long as the others do so, and it ends with such a
failure if it fails. -/
def Script.Keeps (inv : Session → Prop) (fail : Failure → Prop) (x : Script α) : Prop :=
  ∀ s, inv s → x.Meets inv Anyhow (fun _ _ => True) fail s

namespace Script.Keeps

variable {x : Script α}

theorem done (a : α) : (Script.done a).Keeps inv fail := fun _ _ _ _ _ => trivial

theorem fails {e : Failure} (h : fail e) : (Script.fail e : Script α).Keeps inv fail :=
  fun _ _ => h

theorem once {act : Action α} (h : Ensures inv act (fun _ => inv) fun e s => inv s ∧ fail e) :
    (Script.once act).Keeps inv fail := by
  refine fun s hs => .once fun s' hinv _ => ?_
  have hend := h s' hinv
  cases hrun : outcome act s' with
  | mk result s'' =>
    rw [hrun] at hend
    cases result with
    | ok a => exact ⟨hend, trivial, fun _ _ _ => trivial⟩
    | error e => exact ⟨hend.1, trivial, hend.2⟩

theorem bind {f : α → Script β} (h : x.Keeps inv fail) (hnext : ∀ a, (f a).Keeps inv fail) :
    (x >>= f).Keeps inv fail :=
  fun s hs => (h s hs).bind hs fun a s' hinv _ _ => hnext a s' hinv

/-- Side by side they keep it, whatever the turns. -/
theorem sideBySide {xs : List γ} {script : γ → Script α}
    (h : ∀ x ∈ xs, (script x).Keeps inv fail) (turns : List Nat) :
    Ensures inv (Export.sideBySide turns (xs.map script)) (fun _ => inv)
      fun e s => inv s ∧ fail e := by
  intro s hs
  obtain ⟨hinv, -, hresult⟩ := sideBySide_yields hs (fun x hx => h x hx s hs) turns
  cases hrun : outcome (Export.sideBySide turns (xs.map script)) s with
  | mk result s' =>
    rw [hrun] at hinv hresult
    cases result with
    | ok as => exact hinv
    | error e => exact ⟨hinv, hresult⟩

end Script.Keeps

end InterfacePackage.Export
