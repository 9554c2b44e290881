import InterfacePackage.FileTree.Stride

/-!
# Resolving paths

What a path denotes in a file tree. A path is walked name by name from the root or from the start
directory; each step needs a directory to stand in, `..` goes to the directory above, and a link is
replaced by its target. At most forty links are followed, and neither a name nor a path may be too
long. Main statement: `walk_into_directory` (striding over directories comes to the same as entering
them one by one).
-/

namespace InterfacePackage

/-- One step of a walk through a tree. -/
inductive Step where
  /-- An empty piece or a `.`: nothing but the demand that this be a directory. -/
  | stay
  /-- To the directory above. -/
  | up
  /-- To the entry of this name. -/
  | into (n : Name)
deriving DecidableEq, Repr

namespace Step

/-- The step that a piece between slashes stands for. -/
def ofPiece : Text → Step
  | [] => stay
  | ['.'] => stay
  | ['.', '.'] => up
  | piece => into (Utf8.encode piece)

/-- The steps of a path. -/
def ofPath (p : Path) : List Step := (Text.split '/' p).map ofPiece

end Step

namespace FileTree

/-- How many links are followed before a walk gives up. -/
def linkLimit : Nat := 40

/-- How many bytes a name may have. -/
def nameLimit : Nat := 255

/-- How many bytes a path may have. -/
def pathLimit : Nat := 4095

/-- The names that steps begin with, up to a dot or a name that is too long. -/
def runOf : List Step → List Name
  | .into n :: rest => if nameLimit < n.length then [] else n :: runOf rest
  | _ => []

/-- Lets a path pass that may be walked at all: one without the character zero that is neither too
long nor empty. -/
def vet (p : Path) : Except Fault Unit :=
  if '\x00' ∈ p then .error .zeroInName
  else if pathLimit < (Utf8.encode p).length then .error .nameTooLong
  else if p = [] then .error .notFound
  else .ok ()

/-- Steps taken from a place, where `jump` goes on behind a link from its target, the link's
directory and the steps left. The last name need not exist; every one before it must. Of the steps
`taken` are done already: a directory is entered with all directories that the names after it lead
to. -/
def walk (t : FileTree) (jump : Path → Place → List Step → Except Fault Place) :
    (taken : Nat) → Place → List Step → Except Fault Place
  | _, here, [] => .ok here
  | taken + 1, here, _ :: rest => walk t jump taken here rest
  | 0, here, step :: rest =>
    if t.entryAt here = some .directory then
      match step with
      | .stay => walk t jump 0 here rest
      | .up => walk t jump 0 here.dropLast rest
      | .into n =>
        if nameLimit < n.length then .error .nameTooLong
        else
          match t.entryAt (here ++ [n]) with
          | none => if rest = [] then .ok (here ++ [n]) else .error .notFound
          | some (.link target) => jump target here rest
          | some (.file _) => walk t jump 0 (here ++ [n]) rest
          | some .directory =>
            let names := runOf rest
            let far := t.stride (here ++ [n]) names
            walk t jump far (here ++ [n] ++ names.take far) rest
    else .error .notDirectory

/-- Steps taken from a place through at most `links` links. -/
def follow (t : FileTree) : (links : Nat) → Place → List Step → Except Fault Place
  | 0 => t.walk (fun _ _ _ => .error .tooManyLinks) 0
  | links + 1 => t.walk (fun target here rest =>
    t.follow links (if target.isAbsolute then [] else here) (Step.ofPath target ++ rest)) 0

/-- Steps that lead through directories may be taken at once. -/
theorem walk_take {t : FileTree} (h : t.IsSound)
    {jump : Path → Place → List Step → Except Fault Place} {here : Place} {rest : List Step}
    {taken : Nat} (hrun : taken ≤ (runOf rest).length)
    (hhere : ∀ k ≤ taken, t.entryAt (here ++ (runOf rest).take k) = some .directory) :
    t.walk jump taken (here ++ (runOf rest).take taken) rest = t.walk jump 0 here rest := by
  induction rest generalizing here taken with
  | nil => simp [walk, runOf]
  | cons step rest ih =>
    cases taken with
    | zero => simp
    | succ taken =>
      match step with
      | .stay => simp [runOf] at hrun
      | .up => simp [runOf] at hrun
      | .into n =>
        by_cases hn : nameLimit < n.length
        · simp [runOf, hn] at hrun
        · simp only [runOf, if_neg hn, List.length_cons, Nat.add_le_add_iff_right] at hrun
          have hnext : ∀ k ≤ taken,
              t.entryAt (here ++ [n] ++ (runOf rest).take k) = some .directory := fun k hk => by
            simpa [runOf, hn] using hhere (k + 1) (by omega)
          have hdir : t.entryAt here = some .directory := by simpa using hhere 0 (by omega)
          have hentered : t.entryAt (here ++ [n]) = some .directory := by
            simpa using hnext 0 (by omega)
          have hfar : t.walk jump (t.stride (here ++ [n]) (runOf rest))
                (here ++ [n] ++ (runOf rest).take (t.stride (here ++ [n]) (runOf rest))) rest
              = t.walk jump 0 (here ++ [n]) rest :=
            ih stride_le fun k hk => entryAt_take_stride h hentered hk
          calc t.walk jump (taken + 1)
                (here ++ (runOf (.into n :: rest)).take (taken + 1)) (.into n :: rest)
              = t.walk jump taken (here ++ [n] ++ (runOf rest).take taken) rest := by
                simp [walk, runOf, hn]
            _ = t.walk jump 0 (here ++ [n]) rest := ih hrun hnext
            _ = t.walk jump 0 here (.into n :: rest) := by
                simp only [walk, if_pos hdir, if_neg hn, hentered]
                exact hfar.symm

/-- Striding over directories comes to the same as entering them one by one. -/
theorem walk_into_directory {t : FileTree} (h : t.IsSound)
    {jump : Path → Place → List Step → Except Fault Place} {here : Place} {n : Name}
    {rest : List Step} (hhere : t.entryAt here = some .directory) (hn : n.length ≤ nameLimit)
    (hentered : t.entryAt (here ++ [n]) = some .directory) :
    t.walk jump 0 here (.into n :: rest) = t.walk jump 0 (here ++ [n]) rest := by
  rw [walk, if_pos hhere]
  simp only [if_neg (Nat.not_lt.2 hn), hentered]
  exact walk_take h stride_le fun k hk => entryAt_take_stride h hentered hk

/-- The place a path starts from. -/
def startOf (t : FileTree) (p : Path) : Place := if p.isAbsolute then [] else t.start

/-- The place a path leads to. Nothing need stand there yet, but the directory it lies in exists. -/
def place (t : FileTree) (p : Path) : Except Fault Place := do
  vet p
  t.follow linkLimit (t.startOf p) (Step.ofPath p)

/-- What stands at the end of steps, and where. -/
def lookupFrom (t : FileTree) (here : Place) (steps : List Step) :
    Except Fault (Place × Entry) := do
  let there ← t.follow linkLimit here steps
  match t.entryAt there with
  | some e => .ok (there, e)
  | none => .error .notFound

/-- What a path denotes, and where it stands. -/
def lookup (t : FileTree) (p : Path) : Except Fault (Place × Entry) := do
  vet p
  t.lookupFrom (t.startOf p) (Step.ofPath p)

/-- The directory in which a path names something, and the name; no name when the path ends in `.`
or `..` or is the root. Slashes at the end do not count. -/
def owner (t : FileTree) (p : Path) : Except Fault (Place × Option Name) := do
  vet p
  match (Text.split '/' p).reverse.dropWhile (· = []) with
  | [] => .ok ([], none)
  | last :: above =>
    let (here, e) ← t.lookupFrom (t.startOf p) (above.reverse.map Step.ofPiece)
    match e with
    | .directory =>
      match Step.ofPiece last with
      | .into n => if nameLimit < n.length then .error .nameTooLong else .ok (here, some n)
      | _ => .ok (here, none)
    | _ => .error .notDirectory

/-- What a path names itself, a link at its end not followed; with a slash or a dot at the end it is
what the path denotes. -/
def lookupLink (t : FileTree) (p : Path) : Except Fault (Place × Entry) :=
  match Step.ofPath p |>.getLast? with
  | some (.into _) => do
    match ← t.owner p with
    | (here, some n) =>
      match t.entryAt (here ++ [n]) with
      | some e => .ok (here ++ [n], e)
      | none => .error .notFound
    | (here, none) => .ok (here, .directory)
  | _ => t.lookup p

/-- Whether a path denotes anything. -/
def exists? (t : FileTree) (p : Path) : Bool := (t.lookup p).isOk

/-- Whether a path denotes a directory. -/
def isDirectory (t : FileTree) (p : Path) : Bool :=
  match t.lookup p with
  | .ok (_, .directory) => true
  | _ => false

/-- Whether a path denotes a regular file. -/
def isFile (t : FileTree) (p : Path) : Bool :=
  match t.lookup p with
  | .ok (_, .file _) => true
  | _ => false

end FileTree

end InterfacePackage
