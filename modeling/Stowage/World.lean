/-
What an action works on: the file system and what is to be reported on the way.
-/
import Stowage.Disk.Change

namespace Stowage

structure World where
  disk : Disk
  /-- What was left out of an archive, in order. -/
  notes : List String
  deriving DecidableEq, Inhabited

/-- An action may fail; what it did before that stays done. -/
abbrev Action := ExceptT Error (StateM World)

namespace Action

variable {α : Type}

def disk : Action Disk := do return (← get).disk

def note (text : String) : Action Unit := modify fun w => { w with notes := w.notes ++ [text] }

def ofExcept : Except Error α → Action α
  | .ok a => pure a
  | .error e => throw e

/-- A question to the disk as it is. -/
def ask (question : Disk → Except FileFault α) : Action α := do
  match question (← disk) with
  | .ok a => return a
  | .error e => throw (.file e)

/-- A change of the disk. -/
def change (c : Disk.Change α) : Action α := fun w =>
  let (result, disk) := c.run.run w.disk
  (result.mapError Error.file, { w with disk })

/-- Does something whose failure is of no interest. -/
def attempt (a : Action Unit) : Action Unit := tryCatch a fun _ => return

end Action
end Stowage
