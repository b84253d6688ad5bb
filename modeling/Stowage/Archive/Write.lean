/-
Writing an archive. It is written beside its destination and put in place when it is complete; after a
failure what was written is removed again.
-/
import Stowage.Archive.Writer
import Stowage.World

namespace Stowage.Archive

structure Summary where
  path : Path
  /-- The size of the archive file. -/
  size : Nat
  /-- How many entries were written. -/
  entries : Nat
  /-- What the writer was handed. -/
  members : List Member
  deriving Inhabited

/-- The file that holds an archive until it is complete. -/
def unfinished (destination : Path) : Path :=
  destination.withFileName (destination.fileName.getD "" ++ ".partial")

/-- How far the entries are written. -/
structure Progress where
  writer : Writer
  /-- How many entries were written. -/
  written : Nat
  /-- What the writer was handed. -/
  members : List Member

namespace Progress

def start (format : Format) (level : Nat) : Progress := ⟨.new format level, 0, []⟩

/-- Hands a member to the writer and counts it. -/
def add (p : Progress) (m : Member) : Except FileFault Progress := do
  let writer ← p.writer.add m
  return ⟨writer, p.written + 1, p.members ++ [m]⟩

end Progress

/-- Writes one entry after the other. A file that is gone is left out, and writing goes on as if it had
not been there. -/
def writeEntries (format : Format) : Progress → List (String × Source) → Action Progress
  | p, [] => return p
  | p, (name, source) :: rest => do
    match member format (← Action.disk) name source >>= p.add with
    | .ok p => writeEntries format p rest
    | .error .notFound =>
      Action.note s!"Skip {name}, file no longer exists"
      writeEntries format p rest
    | .error fault => throw (.file fault)

/-- Writes the entries to a file. -/
def writeAll (a : Contents) (file : Path) (format : Format) (level : Nat) : Action Progress := do
  Action.change (Disk.write file (.text ""))
  let p ← writeEntries format (.start format level) a.entries
  Action.change (Disk.write file (.binary p.writer.finish))
  return p

/-- Writes an archive of what was collected. -/
def Contents.write (a : Contents) (destination : Path) (format : Format) (level : Nat) :
    Action Summary := do
  if maxLevel < level then throw (.invalidLevel level)
  if let some parent := destination.parent? then Action.change (Disk.createDirectories parent)
  let file := unfinished destination
  let p ← tryCatch (writeAll a file format level) fun e => do
    Action.attempt (Action.change (Disk.removeFile file))
    throw e
  Action.change (Disk.rename file destination)
  let content ← Action.ask (·.read destination)
  return ⟨destination, content.bytes.size, p.written, p.members⟩

end Stowage.Archive
