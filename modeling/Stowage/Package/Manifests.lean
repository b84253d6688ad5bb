/-
The manifests that were read during a project. What was found at a location, be it nothing, is kept
for as long as the project lasts; a manifest that could not be read is not kept.
-/
import Stowage.Manifest
import Stowage.Disk.Basic

namespace Stowage

/-- What was found at each location so far. -/
structure Manifests where
  found : List (Path × Option Manifest)
  deriving Inhabited

/-- A question to a disk that reads manifests on the way. -/
abbrev Query := ExceptT Error (StateM Manifests)

namespace Query

variable {α : Type}

def ofExcept : Except Error α → Query α
  | .ok a => pure a
  | .error e => throw e

def ofDisk : Except FileFault α → Query α
  | .ok a => pure a
  | .error e => throw (.file e)

/-- The outcome of a question as a value. -/
def outcome (q : Query α) : Query (Except Error α) :=
  tryCatch (do return .ok (← q)) fun e => return .error e

end Query

namespace Manifests

def empty : Manifests := ⟨[]⟩

/-- What was found at a location, if it was looked at. -/
def lookup? (ms : Manifests) (location : Path) : Option (Option Manifest) :=
  (ms.found.find? fun e => e.1.same location).map Prod.snd

def insert (ms : Manifests) (location : Path) (m : Option Manifest) : Manifests :=
  ⟨ms.found ++ [(location, m)]⟩

/-- The number of locations that were looked at. -/
def size (ms : Manifests) : Nat := ms.found.length

/-- The manifest of a location as the disk has it. -/
def readAt (d : Disk) (location : Path) : Except Error (Option Manifest) :=
  let file := manifestPath location
  if d.isFile file then
    match d.readText file with
    | .ok text => (Manifest.parse file text).map some
    | .error e => .error (.file e)
  else .ok none

/-- The manifest of a location, read when the location is looked at first. -/
def load (d : Disk) (location : Path) : Query (Option Manifest) := do
  match (← get).lookup? location with
  | some m => return m
  | none =>
    let m ← Query.ofExcept (readAt d location)
    modify (·.insert location m)
    return m

/-- The manifest of a location that has to have one. -/
def require (d : Disk) (location : Path) : Query Manifest := do
  match ← load d location with
  | some m => return m
  | none => throw (.manifestNotFound (manifestPath location))

end Manifests
end Stowage
