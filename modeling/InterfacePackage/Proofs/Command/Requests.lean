import InterfacePackage.Command.Runner

/-!
# Requests and their calls

A runner makes one call for each request, whatever came of the requests before it. What a call is
depends on the request alone; what the request comes to depends on the answer to its call, which the
executor gives after the calls of the earlier requests and no others. Main statement:
`requests_one_to_one`.
-/

namespace InterfacePackage.Runner

variable {r : Runner} {execute : Executor} {before : List Invocation} {qs : List Request}

/-! ## One request -/

/-- The call that a request is for. What the request holds is passed on unaltered, each text as one
argument, and an absolute directory is taken as it is. -/
inductive IsCallFor (r : Runner) : Request → Invocation → Prop
  | generate (target : Text) (outDir : Path) (pattern : Text) :
      IsCallFor r (.generate target outDir pattern)
        ⟨r.program, r.manager.runArguments ++
          ["typechain".toList, "--target".toList, target, "--out-dir".toList, outDir, pattern],
          r.root⟩
  | installAt {directory : Path} (h : directory.isAbsolute = true) :
      IsCallFor r (.install directory) ⟨r.program, ["install".toList], directory⟩
  | installBelow {directory : Path} (h : directory.isAbsolute = false) :
      IsCallFor r (.install directory) ⟨r.program, ["install".toList], r.root.join directory⟩

/-- What a request comes to, by the answer to its call: the output if the code is zero, a failure
with the call as it is shown for any other output, and the executor's own fault as it is. -/
inductive ComesTo (i : Invocation) : Except RunFault Output → Except RunFault Output → Prop
  | succeeded {output : Output} (h : output.code = some 0) : ComesTo i (.ok output) (.ok output)
  | ended {output : Output} {code : Int} (h : output.code = some code) (hcode : code ≠ 0) :
      ComesTo i (.ok output) (.error (.failed i.display code output.stderr))
  | killed {output : Output} (h : output.code = none) :
      ComesTo i (.ok output) (.error (.failed i.display (-1) output.stderr))
  | notStarted (fault : RunFault) : ComesTo i (.error fault) (.error fault)

/-- The call that a runner makes is the one that the request is for. -/
theorem isCallFor_invocation (r : Runner) (q : Request) : IsCallFor r q (r.invocation q) := by
  cases q with
  | generate target outDir pattern => exact .generate target outDir pattern
  | install directory =>
    cases habs : directory.isAbsolute with
    | true =>
      have hdirectory : r.root.join directory = directory := by rw [Path.join, if_pos habs]
      rw [invocation, hdirectory]
      exact .installAt habs
    | false => exact .installBelow habs

/-- An answer is judged by its code. -/
theorem comesTo_judge (i : Invocation) (answer : Except RunFault Output) :
    ComesTo i answer (judge i answer) := by
  cases answer with
  | error fault => exact .notStarted fault
  | ok output =>
    show ComesTo i (.ok output) (if output.isSuccess then .ok output
      else .error (.failed i.display (output.code.getD (-1)) output.stderr))
    split
    · rename_i hsuccess
      exact .succeeded (of_decide_eq_true hsuccess)
    · rename_i hfailure
      cases hcode : output.code with
      | none => exact .killed hcode
      | some code =>
        have hnonzero : code ≠ 0 := by
          rintro rfl
          exact hfailure (decide_eq_true hcode)
        exact .ended hcode hnonzero

/-! ## Requests one after another -/

/-- The calls of requests are those that the requests are for, one for each. -/
theorem map_fst_requests (r : Runner) (execute : Executor) (before : List Invocation)
    (qs : List Request) : (r.requests execute before qs).map (·.1) = qs.map r.invocation := by
  induction qs generalizing before with
  | nil => rfl
  | cons q qs ih => rw [requests, List.map_cons, List.map_cons, ih]

/-- A request is answered after the calls of the requests before it. -/
theorem getElem?_requests (r : Runner) (execute : Executor) (before : List Invocation)
    (qs : List Request) (n : Nat) :
    (r.requests execute before qs)[n]?
      = qs[n]?.map fun q =>
          (r.invocation q, r.request execute (before ++ (qs.take n).map r.invocation) q) := by
  induction qs generalizing before n with
  | nil => simp [requests]
  | cons q qs ih =>
    rw [requests]
    cases n with
    | zero => simp
    | succ n =>
      -- the call of `q` is one of those that the executor has received by then
      rw [List.getElem?_cons_succ, List.getElem?_cons_succ, ih, List.take_succ_cons, List.map_cons,
        List.append_assoc, List.singleton_append]

/-- Requests, and the calls made for them with what came of each, one to one and in order. The calls
are told from the requests one by one, and each is answered by an executor that has received those
before it. -/
structure OneToOne (r : Runner) (execute : Executor) (qs : List Request)
    (dialogue : List (Invocation × Except RunFault Output)) : Prop where
  calls : ∃ call : Request → Invocation, (∀ q, IsCallFor r q (call q)) ∧
    dialogue.map (·.1) = qs.map call
  outcomes : ∀ (n : Nat) (q : Request), qs[n]? = some q →
    ∃ i outcome, dialogue[n]? = some (i, outcome) ∧ IsCallFor r q i ∧
      ComesTo i (execute ((dialogue.map (·.1)).take n) i) outcome

/-- However many requests are made, and whatever the executor answers to each call, calls and
outcomes are one to one with the requests. -/
theorem requests_one_to_one (r : Runner) (execute : Executor) (qs : List Request) :
    OneToOne r execute qs (r.requests execute [] qs) := by
  have hcalls := map_fst_requests r execute [] qs
  refine ⟨⟨r.invocation, isCallFor_invocation r, hcalls⟩, fun n q hq => ?_⟩
  have hdialogue := getElem?_requests r execute [] qs n
  rw [hq, Option.map_some, List.nil_append, List.map_take, ← hcalls] at hdialogue
  exact ⟨_, _, hdialogue, isCallFor_invocation r q, comesTo_judge _ _⟩

/-- A signal and a program that is not there keep no later request from its call. -/
example :
    requests ⟨.bun, "bun", "/p"⟩ (fun before _ =>
        if before.length = 0 then .ok ⟨none, [], "x"⟩
        else if before.length = 1 then .error (.notStarted "bun" "gone") else .ok {})
      [] [.install "npm", .install "/q", .generate "a b" "--" "*"]
    = [(⟨"bun", ["install".toList], "/p/npm"⟩, .error (.failed "bun install" (-1) "x")),
      (⟨"bun", ["install".toList], "/q"⟩, .error (.notStarted "bun" "gone")),
      (⟨"bun", ["run".toList, "typechain".toList, "--target".toList, "a b".toList,
        "--out-dir".toList, "--".toList, "*".toList], "/p"⟩, .ok {})] := rfl

end InterfacePackage.Runner
