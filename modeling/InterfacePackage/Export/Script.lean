import InterfacePackage.Export.Session

/-!
# Scripts side by side

A script is a part of an export cut into steps: a step is one operation that nothing comes in
between. Scripts run side by side by turns, and a list of turns is a schedule. It stands for what
the machine does with the threads, which the program has no say in. One that fails does not stop
those that have begun.
-/

namespace InterfacePackage.Export

/-- A part of an export cut into steps. -/
inductive Script (α : Type) where
  | done (a : α)
  | fail (e : Failure)
  /-- A step leaves a session and goes on, both as it finds the session. -/
  | step (leave : Session → Session) (next : Session → Script α)

namespace Script

variable {α β : Type}

/-- One script after the other. -/
def bind : Script α → (α → Script β) → Script β
  | done a, f => f a
  | fail e, _ => .fail e
  | step leave next, f => .step leave fun s => (next s).bind f

instance : Monad Script where
  pure := done
  bind := bind

/-- A result as the end of a script. -/
def ofResult : Except Failure α → Script α
  | .ok a => done a
  | .error e => fail e

/-- An action as a single step. -/
def once (act : Action α) : Script α :=
  .step (fun s => (act.run.run s).2) fun s => ofResult (act.run.run s).1

/-- A script run with nothing in between. -/
def alone : Script α → Action α
  | done a => pure a
  | fail e => throw e
  | step leave next => do
    let s ← get
    set (leave s)
    (next s).alone

end Script

/-! ## Turns -/

variable {α : Type}

/-- A script on its way, and whether it has had a turn. -/
structure Worker (α : Type) where
  script : Script α
  begun : Bool := false

/-- Scripts side by side. -/
structure Crew (α : Type) where
  workers : List (Worker α)
  /-- The first failure that was reported. -/
  failure : Option Failure := none

/-- A turn of the `k`-th script: its next step, or the report of its failure. There may be other
turns between the two. -/
def Crew.turn (crew : Crew α) (k : Nat) : StateM Session (Crew α) := do
  match crew.workers[k]? with
  | some ⟨.step leave next, _⟩ =>
    let s ← get
    set (leave s)
    return { crew with workers := crew.workers.set k ⟨next s, true⟩ }
  | some ⟨.fail e, _⟩ => return { crew with failure := crew.failure <|> some e }
  | _ => return crew

/-- What is left when the turns are over, one script after the other: those that have begun go on to
their ends, and so do the others as long as no failure is reported. -/
def completeWork : List (Worker α) → Option Failure → StateM Session (Except Failure (List α))
  | [], none => return .ok []
  | [], some e => return .error e
  | w :: left, failure => do
    if w.begun || failure.isNone then
      match ← w.script.alone.run with
      | .ok a => return (← completeWork left failure).map (a :: ·)
      | .error e => completeWork left (failure <|> some e)
    else completeWork left failure

/-- Scripts run side by side, their results in the order of the scripts. Without any turns they run
one after the other. -/
def sideBySide (turns : List Nat) (scripts : List (Script α)) : Action (List α) := ExceptT.mk do
  let crew ← turns.foldlM Crew.turn { workers := scripts.map fun script => { script } }
  completeWork crew.workers crew.failure

end InterfacePackage.Export
