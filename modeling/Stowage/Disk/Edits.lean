/-
The edits that lead from one state of a file system to another: what is gone is removed, what is new
or different is stored. Both states list their entries in the order of the locations.
-/
import Stowage.Disk.Basic

namespace Stowage.Disk

inductive Edit where
  | remove (loc : Location)
  | store (loc : Location) (entry : Entry)
  deriving DecidableEq, Inhabited

/-- The edits between two lists of entries, in the order of the locations. -/
def editsBetween : List (Location × Entry) → List (Location × Entry) → List Edit
  | [], after => after.map fun e => .store e.1 e.2
  | before, [] => before.map fun e => .remove e.1
  | (l, x) :: before, (m, y) :: after =>
    if l = m then
      if x = y then editsBetween before after else .store m y :: editsBetween before after
    else if l < m then .remove l :: editsBetween before ((m, y) :: after)
    else .store m y :: editsBetween ((l, x) :: before) after
termination_by before after => before.length + after.length

/-- The edits that lead from one state to another. Directories are emptied before they are removed and
stored before what they hold. -/
def edits (before after : Disk) : List Edit :=
  let all := editsBetween before.entries after.entries
  let isRemoval (e : Edit) : Bool := match e with
    | .remove _ => true
    | .store _ _ => false
  (all.filter isRemoval).reverse ++ all.filter fun e => !isRemoval e

end Stowage.Disk
