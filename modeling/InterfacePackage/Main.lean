import InterfacePackage.Export.Program

/-!
# The command line

The outer layer of the program. The part of the machine's file tree that an export looks at is read
in, the export runs on it as a function, and what it has changed is carried out. Programs are never
started from here: an export that is to generate bindings or to install dependencies ends, with the
package complete, in the failure that no package manager is there.
-/

namespace InterfacePackage.CommandLine

/-- What has been read in: the tree, and the directories that are complete. -/
structure Survey where
  tree : FileTree
  complete : List Place := []

/-- A part of reading in. -/
abbrev Surveying := StateT Survey IO

/-- A place as a path. -/
def pathTo (p : Place) : String := String.ofList ('/' :: Text.join ['/'] (p.map Utf8.display))

/-- The place of a path without links and dots. -/
def placeOf (p : String) : Place := ((Text.split '/' p.toList).filter (· ≠ [])).map Utf8.encode

/-- A target that leads nowhere, since no file has this name. -/
def nowhere : Path := ['/', '\x00']

/-- What stands at a place on the machine. A link has the path it finally leads to as its target. -/
def entryOn (p : Place) : IO (Option Entry) := do
  let path := pathTo p
  try
    let data ← ((← IO.currentDir) / path).symlinkMetadata
    match data.type with
    | .dir => return some .directory
    | .file => return some (.file (← IO.FS.readBinFile path).toList)
    | .symlink =>
      let target ← try pure (toString (← IO.FS.realPath path)).toList catch _ => pure nowhere
      return some (.link target)
    | .other => return none
  catch _ => return none

/-- The names in a directory on the machine. -/
def namesOn (p : Place) : IO (List Name) := do
  let entries ← ((← IO.currentDir) / pathTo p).readDir
  return entries.toList.map fun e => Utf8.encode e.fileName.toList

/-- Everything on the way of the steps read in and, if the end is a directory and `deep` says so,
all that is below it. Links are followed. -/
partial def visit (deep : Bool) (here : Place) : List Step → Surveying Unit
  | [] => do
    if deep && !(← get).complete.contains here then
      modify fun s => { s with complete := here :: s.complete }
      for n in ← namesOn here do visit true here [.into n]
  | .stay :: rest => visit deep here rest
  | .up :: rest => visit deep here.dropLast rest
  | .into n :: rest => do
    let there := here ++ [n]
    if ((← get).tree.entryAt there).isNone then
      if let some e ← entryOn there then modify fun s => { s with tree := s.tree.put there e }
    match (← get).tree.entryAt there with
    | some .directory => visit deep there rest
    | some (.link target) => visit deep [] (Step.ofPath target ++ rest)
    | _ => return

/-- What a path leads to read in. -/
def look (deep : Bool) (p : Path) : Surveying Unit := do
  visit deep ((← get).tree.startOf p) (Step.ofPath p)

/-- What an export in the directory `current` looks at read in. -/
def survey (current : Path) (a : Arguments) : Surveying Unit := do
  let workspace := current.join a.workspace
  for directory in workspace.ancestors do
    for (file, _) in PackageManager.lockFiles do look false (directory.join file)
  look false (workspace.join "package.json")
  look false (workspace.join (a.config.getD Config.fileName))
  if let .ok c := Config.resolve (← get).tree workspace a then
    for file in [c.readme, c.license, c.remappings] do look false (workspace.join file)
    for directory in [c.exportDir, c.interfacesDir, c.outDir] do
      look true (workspace.join directory)

/-- The changes from one tree to another carried out on the machine. -/
def carryOut (before after : FileTree) : IO Unit := do
  for (p, e) in before.toList.reverse do
    match e, after.entryAt p with
    | .directory, some .directory => pure ()
    | .directory, _ => IO.FS.removeDir (pathTo p)
    | .file _, some (.file _) => pure ()
    | .link _, some (.link _) => pure ()
    | _, _ => IO.FS.removeFile (pathTo p)
  for (p, e) in after.toList do
    if before.entryAt p ≠ some e then
      match e with
      | .directory => IO.FS.createDir (pathTo p)
      | .file content => IO.FS.writeBinFile (pathTo p) ⟨content.toArray⟩
      | .link _ => pure ()

/-- No programs at all. -/
def noPrograms : Programs where
  find? _ := none
  execute _ i := .error (.notStarted i.program Fault.notFound.message)

/-- A failure as it is shown. -/
def describe (e : Failure) : String :=
  let advice := match e.advice with
    | some text => "\n  help: " ++ text
    | none => []
  String.ofList (e.code ++ "\n  " ++ e.message ++ advice)

end InterfacePackage.CommandLine

open InterfacePackage in
/-- Runs an export in the current directory as the command line asks for it. -/
def main (arguments : List String) : IO UInt32 := do
  let words := arguments.map String.toList
  let current := toString (← IO.currentDir)
  let empty : FileTree := ⟨∅, CommandLine.placeOf current⟩
  let tree ← match Arguments.ofWords words with
    | .ok a => pure (← (CommandLine.survey current.toList a).run ⟨empty, []⟩).2.tree
    | .error _ => pure empty
  let (ending, session) := runProgram CommandLine.noPrograms current.toList words tree
  CommandLine.carryOut tree session.tree
  for line in session.warnings ++ session.progress do IO.eprintln (String.ofList line)
  IO.print (String.ofList ending.stdout)
  if let some e := ending.failure then IO.eprintln (CommandLine.describe e)
  if ending.exit = 2 then IO.eprintln "the command line cannot be read; --help lists the options"
  return ending.exit.toUInt32
