import InterfacePackage.Export.Session
import InterfacePackage.Proofs.FileTree.Change

/-!
# Parts of an export

What the parts that an export is put together from come to, and the rules by which a condition on
the tree is carried over them.
-/

namespace InterfacePackage

/-- A failure that refuses the export directory. -/
def Failure.IsRefusal (e : Failure) : Prop :=
  ∃ exportDir workspace, e = .unsafeExportDir exportDir workspace

namespace Export

variable {α : Type} {P : FileTree → Prop} {R : Failure → FileTree → Prop}

/-- Finding something out changes nothing. -/
@[simp] theorem outcome_inspect (f : FileTree → Except Failure α) (s : Session) :
    outcome (inspect f) s = (f s.tree, s) := by
  rw [inspect, outcome_bind, outcome_get]
  dsimp only
  cases f s.tree <;> rfl

/-- A change of the tree leaves it as the change does, also when it fails. -/
theorem outcome_alter (act : FileTree.Action Unit) (wrap : Fault → Failure) (s : Session) :
    outcome (alter act wrap) s
      = ((outcome act s.tree).1.mapError wrap, { s with tree := (outcome act s.tree).2 }) := by
  have hrun : act.run s.tree = outcome act s.tree := rfl
  rw [alter, outcome_bind, outcome_get]
  dsimp only
  rw [hrun]
  cases outcome act s.tree with
  | mk result t =>
    cases result <;> rfl

/-- Something is found out if it can be, and nothing changes. -/
theorem outcome_inspect_eq_ok {f : FileTree → Except Failure α} {s s' : Session} {a : α} :
    outcome (inspect f) s = (.ok a, s') ↔ f s.tree = .ok a ∧ s' = s := by
  rw [outcome_inspect, Prod.mk.injEq]
  exact ⟨fun h => ⟨h.1, h.2.symm⟩, fun h => ⟨h.1, h.2.symm⟩⟩

/-- If it cannot be found out, nothing changes either. -/
theorem outcome_inspect_eq_error {f : FileTree → Except Failure α} {s s' : Session} {e : Failure} :
    outcome (inspect f) s = (.error e, s') ↔ f s.tree = .error e ∧ s' = s := by
  rw [outcome_inspect, Prod.mk.injEq]
  exact ⟨fun h => ⟨h.1, h.2.symm⟩, fun h => ⟨h.1, h.2.symm⟩⟩

/-- A change succeeds if what is done to the tree does. -/
theorem outcome_of_alter {act : FileTree.Action Unit} {wrap : Fault → Failure} {s s' : Session}
    (h : outcome (alter act wrap) s = (.ok (), s')) : outcome act s.tree = (.ok (), s'.tree) := by
  rw [outcome_alter] at h
  cases hact : outcome act s.tree with
  | mk result t =>
    rw [hact] at h
    cases result with
    | ok _ =>
      cases h
      rfl
    | error e => cases h

/-- A single change succeeds if it gives a tree. -/
theorem eq_ok_of_alter_change {f : FileTree → Except Fault FileTree} {wrap : Fault → Failure}
    {s s' : Session} (h : outcome (alter (FileTree.change f) wrap) s = (.ok (), s')) :
    f s.tree = .ok s'.tree := by
  have hchange := outcome_of_alter h
  rw [FileTree.outcome_change] at hchange
  cases hf : f s.tree with
  | ok t =>
    rw [hf] at hchange
    cases hchange
    rfl
  | error e =>
    rw [hf] at hchange
    cases hchange

/-- What holds of the tree is still known when something has been found out. -/
theorem ensures_inspect {f : FileTree → Except Failure α}
    (hfail : ∀ t e, P t → f t = .error e → R e t) :
    Ensures (fun s => P s.tree) (inspect f) (fun x s => P s.tree ∧ f s.tree = .ok x)
      (fun e s => R e s.tree) := by
  intro s hs
  rw [outcome_inspect]
  cases hf : f s.tree with
  | ok x => exact ⟨hs, hf⟩
  | error e => exact hfail s.tree e hs hf

/-- What a change of the tree keeps, whatever comes of it, is kept, and a failure is one of the
operation that the change stands for. -/
theorem ensures_alter {act : FileTree.Action Unit} {activity : Activity} {path : Path}
    (hact : ∀ t, P t → P (outcome act t).2) :
    Ensures (fun s => P s.tree) (alter act (.access activity path)) (fun _ s => P s.tree)
      (fun e s => P s.tree ∧ ∃ fault, e = .access activity path fault) := by
  intro s hs
  have hend := hact s.tree hs
  rw [outcome_alter]
  cases hrun : outcome act s.tree with
  | mk result t =>
    rw [hrun] at hend
    cases result with
    | ok _ => exact hend
    | error fault => exact ⟨hend, fault, rfl⟩

/-- A single change that fails changes nothing. -/
theorem ensures_change {Q : FileTree → Prop} {f : FileTree → Except Fault FileTree}
    {activity : Activity} {path : Path} (hf : ∀ t t', P t → f t = .ok t' → Q t') :
    Ensures (fun s => P s.tree) (alter (FileTree.change f) (.access activity path))
      (fun _ s => Q s.tree) (fun e s => P s.tree ∧ ∃ fault, e = .access activity path fault) := by
  intro s hs
  rw [outcome_alter, FileTree.outcome_change]
  cases hchange : f s.tree with
  | ok t => exact hf s.tree t hs hchange
  | error fault => exact ⟨hs, fault, rfl⟩

end Export

end InterfacePackage
