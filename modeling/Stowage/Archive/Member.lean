/-
The members of a written archive, and the names that a container can hold.
-/
import Stowage.Archive.Contents
import Stowage.Archive.Format

namespace Stowage.Archive

inductive Body where
  | file (content : Content)
  | link (target : String)
  | directory
  deriving DecidableEq, Inhabited

structure Member where
  /-- The name in the archive, with a separator at the end for a directory. -/
  name : String
  body : Body
  deriving DecidableEq, Inhabited

/-- The length of a name or a target in the header of a tape archive. A longer one is kept beside the
header as it is spelled. -/
def tapeWidth : Nat := 100

/-- The longest start of some characters that has at most `width` bytes. -/
def startWithin : Nat → List Char → List Char
  | _, [] => []
  | width, c :: r => if c.utf8Size ≤ width then c :: startWithin (width - c.utf8Size) r else []

/-- A component as it stands in the header of a tape archive; a target may lead up or be absolute. -/
def headerComponent (isTarget : Bool) (isOnly : Bool) : Path.Component → Option (Option String)
  | .name s => some (some s)
  | .here => some (if isTarget || isOnly then some "." else none)
  | .up => if isTarget then some (some "..") else none
  | .root => if isTarget then some (some "") else none

/-- A name or target as it stands in the header of a tape archive: single separators, no inner `.`
components. -/
def headerText (isTarget : Bool) (text : String) : Option String := do
  let p : Path := ⟨text⟩
  let parts ← p.components.mapM (headerComponent isTarget (p.components.length = 1))
  let parts := parts.filterMap id
  if parts.isEmpty then none
  else
    let joined := if parts = [""] then "/" else "/".intercalate parts
    return if text.endsWith "/" && parts ≠ [""] then joined ++ "/" else joined

/-- A name or target as a tape archive holds it, if it can. -/
def tapeText (isTarget : Bool) (text : String) : Option String :=
  match (headerText isTarget text).filter (·.utf8ByteSize ≤ tapeWidth) with
  | some s => some s
  | none =>
    if text.utf8ByteSize < tapeWidth then none
    else
      let start := String.ofList (startWithin tapeWidth text.toList)
      (headerText isTarget start).map fun _ => text

/-- A name or target as a container holds it. -/
def Format.text (format : Format) (isTarget : Bool) (text : String) : Except FileFault String :=
  match format with
  | .zip => .ok text
  | .tgz => match tapeText isTarget text with
    | some s => .ok s
    | none => .error .other

/-- The member that an entry becomes. A file is opened before its name is written, and read after. -/
def member (format : Format) (d : Disk) (name : String) : Source → Except FileFault Member
  | .file path => do
    let (_, e) ← d.find path
    let name ← format.text false name
    match e with
    | .file content => return ⟨name, .file content⟩
    | _ => throw .isADirectory
  | .link target => do
    let name ← format.text false name
    return ⟨name, .link (← format.text true target)⟩
  | .directory => do return ⟨← format.text false (name ++ "/"), .directory⟩

end Stowage.Archive
