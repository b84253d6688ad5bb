/-
Changes of a file system. A change that fails may have been carried out in part.
-/
import Stowage.Disk.Basic

namespace Stowage.Disk

abbrev Change := ExceptT FileFault (StateM Disk)

namespace Change

/-- A fact about the disk as it is. -/
def ask {α : Type} (question : Disk → Except FileFault α) : Change α := do
  match question (← get) with
  | .ok a => return a
  | .error e => throw e

/-- Whether a change succeeds; its failure is forgotten. -/
def succeeds (change : Change Unit) : Change Bool :=
  tryCatch (do change; return true) fun _ => return false

end Change

open Change

/-- A path without the separators at its end. -/
def withoutSlash (p : Path) : Path :=
  match (p.text.toList.reverse.dropWhile (· = '/')).reverse with
  | [] => p
  | cs => ⟨String.ofList cs⟩

def endsInSlash (p : Path) : Bool := p.text.toList.getLast? = some '/'

/-- A file cannot be created where the path asks for a directory. -/
def checkSlash (p : Path) : Change Unit := do
  match ← ask (·.locate true (withoutSlash p)) with
  | .free _ => throw .isADirectory
  | _ => return

/-- Puts a file where a path leads. -/
def store (p : Path) (content : Content) : Change Unit := do
  match ← ask (·.locate true p) with
  | .found _ .directory => throw .isADirectory
  | .found loc _ => modify (·.put loc (.file content))
  | .free loc => modify (·.put loc (.file content))

/-- Writes a file, which is created if there is none. -/
def write (p : Path) (content : Content) : Change Unit := do
  if endsInSlash p then checkSlash p
  store p content

/-- Creates a directory in an existing one. -/
def createDirectory (p : Path) : Change Unit := do
  match ← ask (·.locate false (withoutSlash p)) with
  | .found _ _ => throw .alreadyExists
  | .free loc => modify (·.put loc .directory)

/-- Creates the first of some directories, each in the one after it, as far as they are missing. -/
def createChain : List Path → Change Unit
  | [] => throw .other
  | p :: parents => do
    if p.text.isEmpty then return
    tryCatch (createDirectory p) fun e => do
      if e = .notFound then
        createChain parents
        tryCatch (createDirectory p) fun e => do
          if !(← get).isDirectory p then throw e
      else if !(← get).isDirectory p then throw e

/-- Creates a directory with its parents as far as they are missing. -/
def createDirectories (p : Path) : Change Unit := createChain p.ancestors

/-- Creates a link. -/
def createLink (p : Path) (target : String) : Change Unit := do
  if target.isEmpty then throw .notFound
  match ← ask (·.locate false p) with
  | .found _ _ => throw .alreadyExists
  | .free loc => modify (·.put loc (.link target))

/-- Removes a file or a link. -/
def removeFile (p : Path) : Change Unit := do
  match ← ask (·.locate false p) with
  | .found _ .directory => throw .isADirectory
  | .found loc _ => modify (·.erase loc)
  | .free _ => throw .notFound

/-- What has to be called by its name cannot be called `.` or `..`. -/
def checkName (p : Path) (here up : FileFault) : Except FileFault Unit :=
  match p.steps.getLast? with
  | some "." => .error here
  | some ".." => .error up
  | _ => .ok ()

/-- Removes an empty directory, which has to be called by its name. -/
def removeEmpty (p : Path) : Change Unit := do
  let place ← ask (·.locate false (withoutSlash p))
  ask fun _ => checkName (withoutSlash p) .invalidInput .directoryNotEmpty
  match place with
  | .found loc .directory =>
    if ((← get).names loc).isEmpty then modify (·.erase loc) else throw .directoryNotEmpty
  | .found _ _ => throw .notADirectory
  | .free _ => throw .notFound

/-- Removes a directory and everything below it; of a link only the link itself. -/
def removeTree (p : Path) : Change Unit := do
  match ← ask (·.locate false p) with
  | .found _ (.link _) => removeFile p
  | .found loc .directory =>
    modify fun d => { d with entries := d.entries.filter fun e =>
      !(loc.isPrefixOf e.1 && e.1 ≠ loc) }
    removeEmpty p
  | .found _ (.file _) => throw .notADirectory
  | .free _ => throw .notFound

/-- Moves a file or a link to another place, where it replaces a file or a link. -/
def rename (source target : Path) : Change Unit := do
  match ← ask (·.locate false source) with
  | .free _ => throw .notFound
  | .found loc e =>
    let place ← ask (·.locate false (withoutSlash target))
    ask fun _ => checkName (withoutSlash target) .busy .busy
    if endsInSlash target then throw .notADirectory
    match place with
    | .found _ .directory => throw .isADirectory
    | .found onto _ => modify fun d => (d.erase loc).put onto e
    | .free onto => modify fun d => (d.erase loc).put onto e

/-- Copies what a file holds. A file that is copied onto itself is emptied. -/
def copy (source target : Path) : Change Unit := do
  let (loc, e) ← ask (·.find source)
  match e with
  | .file c =>
    let place ← ask (·.locate true target)
    match place with
    | .found onto _ => write target (if onto = loc then .text "" else c)
    | .free _ => write target c
  | _ => throw .invalidInput

end Stowage.Disk
