/-
Collecting the entries of an archive. Entries are kept by their name in the archive, in the order of
the names; a later entry takes the place of an earlier one of its name.
-/
import Stowage.Disk.Basic
import Stowage.Glob.Expansion
import Stowage.Path.Relative
import Stowage.Workspace

namespace Stowage.Archive

/-- Where the content of an entry comes from. -/
inductive Source where
  /-- A file on the disk, read when the archive is written. -/
  | file (path : Path)
  | link (target : String)
  | directory
  deriving DecidableEq, Inhabited

structure Contents where
  /-- The directory that the names of the archive are relative to. -/
  root : Path
  /-- The entries in the order of their names. -/
  entries : List (String × Source)
  /-- What was left out, in order. -/
  notes : List String
  deriving DecidableEq, Inhabited

namespace Contents

/-- No entries yet, for a directory. -/
def create (d : Disk) (root : Path) : Contents :=
  ⟨(d.canonicalize root).toOption.getD root, [], []⟩

/-- Puts an entry among entries in order. -/
def insert (name : String) (source : Source) : List (String × Source) → List (String × Source)
  | [] => [(name, source)]
  | (n, s) :: rest =>
    if n = name then (name, source) :: rest
    else if name < n then (name, source) :: (n, s) :: rest
    else (n, s) :: insert name source rest

def put (a : Contents) (name : String) (source : Source) : Contents :=
  { a with entries := insert name source a.entries }

def note (a : Contents) (text : String) : Contents := { a with notes := a.notes ++ [text] }

def names (a : Contents) : List String := a.entries.map Prod.fst

/-- Collecting may fail, what was collected before stays. -/
abbrev Collect := ExceptT Error (StateM Contents)

namespace Collect

variable {α : Type}

def ofExcept : Except Error α → Collect α
  | .ok a => pure a
  | .error e => throw e

def ofDisk : Except FileFault α → Collect α
  | .ok a => pure a
  | .error e => throw (.file e)

def add (name : String) (source : Source) : Collect Unit := modify (·.put name source)

end Collect

/-! ## Files -/

/-- Adds files by their names below the root. -/
def putFiles (a : Contents) (files : List String) : Contents :=
  files.foldl (fun a file =>
    let name := Path.bareText file
    a.put name (.file (a.root / name))) a

/-- Adds a generated file under a name of its own. -/
def replaceFile (a : Contents) (name : String) (source : Path) : Contents :=
  a.put (Path.bareText name) (.file source)

/-- The name below a directory of a path below it. -/
def nameInside (dir path : Path) : String := ((path.stripPrefix? dir).getD path).slashText

/-- Adds the files below a generated directory, `location` is the place of the directory in the
archive. -/
def replaceTree (d : Disk) (location : String) (dir : Path) : Collect Unit := do
  for (path, type) in ← Collect.ofDisk (d.tree dir) do
    if type = .file then
      modify (·.replaceFile (Path.slashJoin location (nameInside dir path)) path)

/-! ## Links, trees and patterns -/

/-- Adds the entries of a tree called `name`; `link` adds a link. -/
def addEntries (link : String → Path → Collect Unit) (name : String) (dir : Path) :
    List (Path × EntryType) → Collect Unit
  | [] => return
  | (path, type) :: rest => do
    let entryName := Path.slashJoin name (nameInside dir path)
    match type with
    | .link => link entryName path
    | .directory => Collect.add entryName .directory
    | .file => Collect.add entryName (.file path)
    addEntries link name dir rest

/-- Adds a tree, `name` is the place of `dir` in the archive. -/
def addBelow (d : Disk) (link : String → Path → Collect Unit) (name : String) (dir : Path) :
    Collect Unit := do
  addEntries link name dir (← Collect.ofDisk (d.tree dir))

/-- The target of a link called `name` that leads to the entry called `target`. -/
def linkTarget (name target : String) : String :=
  (Path.diff ⟨target⟩ ((Path.mk name).parent?.getD ⟨""⟩)).slashText

/-- Adds a link. One that leads out of the root is replaced by what it leads to; `fuel` bounds how
often such links follow each other. -/
def addLink (d : Disk) : Nat → String → Path → Collect Unit
  | 0, _, _ => throw .endlessLinks
  | fuel + 1, name, link => do
    match d.canonicalize link with
    | .error .notFound => modify (·.note ("Skip dangling link " ++ name))
    | .error fault => throw (.file fault)
    | .ok target =>
      match target.nameBelow? (← get).root with
      | some targetName => Collect.add name (.link (linkTarget name targetName))
      | none =>
        if d.isDirectory target then addBelow d (addLink d fuel) name target
        else Collect.add name (.file target)

/-- As many links out of the root as can follow each other: each leads to another directory. -/
def linkDepth (d : Disk) : Nat := d.entries.length + 2

/-- Adds what a path names, with everything below a directory. -/
def addInPlace (d : Disk) (path : Path) : Collect Unit := do
  let name ← Collect.ofExcept (nameBelow path (← get).root)
  match ← Collect.ofDisk (d.typeOf path) with
  | .link => addLink d (linkDepth d) name path
  | .directory => addBelow d (addLink d (linkDepth d)) name path
  | .file => Collect.add name (.file path)

/-- Adds what a pattern below the root matches. -/
def addMatching (d : Disk) (pattern : String) : Collect Unit := do
  let pattern := Glob.literal (← get).root.text ++ "/" ++ pattern
  let paths ← Collect.ofExcept ((Glob.expand d Glob.caseless pattern).mapError Error.pattern)
  paths.forM (addInPlace d)
  if paths.isEmpty then modify (·.note ("No matches for extra pattern " ++ pattern))

/-- Adds a path below the root, or what it matches if there is no such path and it is a pattern. -/
def addNamed (d : Disk) (extra : String) : Collect Unit := do
  let name := Path.bareText extra
  let path := (← get).root / name
  match d.typeOf path with
  | .ok _ => addInPlace d path
  | .error .notFound =>
    if Path.isPattern name then addMatching d name
    else modify (·.note ("Skip missing extra " ++ extra))
  | .error fault => throw (.file fault)

def addAllNamed (d : Disk) (extras : List String) : Collect Unit := extras.forM (addNamed d)

end Contents
end Stowage.Archive
