/-
The program: reads the part of the file system that a command may look at, runs the command, and
carries out what it changed.
-/
import Stowage.CommandLine.Run
import Stowage.Disk.Edits

namespace Stowage.Program

/-! ## Reading -/

/-- What matters for a project: its tree, and the packages and manifests in the directories above. -/
def isRelevant (project loc : Location) : Bool :=
  loc.isPrefixOf project || project.isPrefixOf loc ||
    match (loc.zip project).dropWhile fun (a, b) => a = b with
    | (name, _) :: _ => name = Package.modulesDir || name = manifestName
    | [] => false

/-- The directory of a project: the outermost one with a manifest on the way to `loc`. -/
def projectOf (loc : Location) : IO Location := do
  for n in List.range (loc.length + 1) do
    let dir ← IO.FS.realPath (Path.ofLocation (loc.take n)).text
    if ← (dir / manifestName).pathExists then return loc.take n
  return loc

/-- Reads what is relevant below a directory. Links that lead nowhere are left out. -/
partial def readBelow (relevant : Location → Bool) (loc : Location) :
    IO (List (Location × Entry)) := do
  let dir ← IO.FS.realPath (Path.ofLocation loc).text
  let found := (← dir.readDir).toList.mergeSort fun a b => a.fileName ≤ b.fileName
  let read (e : IO.FS.DirEntry) : IO (List (Location × Entry)) := do
    let inner := loc ++ [e.fileName]
    if !relevant inner then return []
    match (← e.path.symlinkMetadata).type with
    | .dir => return (inner, .directory) :: (← readBelow relevant inner)
    | .file => return [(inner, .file (.ofBytes (← IO.FS.readBinFile e.path)))]
    | .symlink =>
      let target ← IO.FS.realPath e.path
      return [(inner, .link (Path.diff ⟨target.toString⟩ (.ofLocation loc)).text)]
    | .other => return []
  let parts ← found.mapM fun e => tryCatch (read e) fun _ => return []
  return parts.flatten

/-- The directory that a command names. -/
def directoryOf : Command → Option Path
  | .bundle dir _ _ => some dir
  | .trace dir _ _ _ => dir
  | .expand dir _ => some dir
  | .root dir => some dir

/-- The disk as a command may see it. -/
def readDisk (command : Command) : IO Disk := do
  let here := Path.steps ⟨(← IO.currentDir).toString⟩
  let mut projects := [← projectOf here]
  if let some dir := directoryOf command then
    let there ← tryCatch (do
      let real ← IO.FS.realPath ((← IO.currentDir) / dir.text)
      return Path.steps ⟨real.toString⟩) fun _ => return here
    projects := projects ++ [← projectOf there]
  return ⟨← readBelow (fun loc => projects.any fun p => isRelevant p loc) [], here⟩

/-! ## Writing -/

def carryOut (before : Disk) : Disk.Edit → IO Unit
  | .remove loc => do
    let name := (Path.ofLocation loc).text
    if before.entry? loc = some .directory then IO.FS.removeDir name else IO.FS.removeFile name
  | .store loc .directory => IO.FS.createDirAll (Path.ofLocation loc).text
  | .store loc (.file content) => IO.FS.writeBinFile (Path.ofLocation loc).text content.bytes
  | .store loc (.link target) => throw (IO.userError s!"cannot link {loc} to {target}")

def showAnswer (answer : CommandLine.Answer) : IO Unit := do
  if let .bundled report := answer then
    for warning in report.warnings do IO.eprintln warning
  for line in answer.output do IO.println line

/-- Runs a command on the real file system. -/
def perform (command : Command) : IO UInt32 := do
  let before ← readDisk command
  let (result, after) := command.run.run.run ⟨before, []⟩
  for note in after.notes do IO.eprintln note
  for edit in before.edits after.disk do carryOut before edit
  match result with
  | .ok answer => showAnswer answer; return 0
  | .error failure =>
    for line in failure.lines do IO.eprintln line
    return 1

end Stowage.Program

open Stowage in
def main (arguments : List String) : IO UInt32 := do
  match Command.ofArguments arguments with
  | .ok command => Program.perform command
  | .error fault =>
    IO.eprintln s!"error: {fault.message}"
    return 1
