/-
A project: its directory, the root of its workspace and the way modules are resolved in it.
-/
import Stowage.Workspace.Root
import Stowage.Resolution.Resolver

namespace Stowage

structure Project where
  /-- The directory of the project. -/
  start : Path
  /-- The root of the workspace. -/
  root : Path
  resolver : Resolve

/-- Where a package is. -/
inductive PackageRoot where
  | builtin (name : String)
  | directory (root : Path)
  deriving DecidableEq, Inhabited

namespace Project

/-- Opens the project of a directory. -/
def create (d : Disk) (resolver : Resolve) (start : Path) : Query Project := do
  let start ← Query.ofDisk (d.canonicalize start)
  return ⟨start, ← Workspace.root d start, resolver⟩

/-- The name of a path in the workspace. -/
def relative (s : Project) (p : Path) : Except Error String := nameBelow p s.root

/-- Resolves a specifier from a file or a directory; a module that is missing is missing from there. -/
def resolve (s : Project) (d : Disk) (base : Path) (specifier : String) : Query Resolution :=
  tryCatch (s.resolver d base specifier) fun e =>
    throw (if e.isMissing then .moduleNotFound specifier base else e)

/-- Resolves the entry of a package; one without any resolves to its manifest. -/
def findEntry (s : Project) (d : Disk) (base : Path) (name : String) : Query Resolution :=
  tryCatch (s.resolve d base name) fun e => do
    if e.isMissing then
      tryCatch (s.resolve d base (name ++ "/" ++ manifestName)) fun _ => throw e
    else throw e

/-- Resolves the entry of a package from the root of the package that needs it, then from `base`. -/
def resolveFor (s : Project) (d : Disk) (base : Path) (needing : Option Path) (name : String) :
    Query Resolution :=
  match needing with
  | none => s.findEntry d base name
  | some dir =>
    tryCatch (s.findEntry d dir name) fun e =>
      if e.isMissing then s.findEntry d base name else throw e

/-- The root directory of an installed package. -/
def packageRoot (s : Project) (d : Disk) (name : String) (base : Path) (needing : Option Path) :
    Query PackageRoot := do
  match ← s.resolveFor d base needing name with
  | .builtin name => return .builtin name
  | .file entry =>
    match ← Package.rootDirectory d name entry with
    | some dir => return .directory dir
    | none => throw (.moduleNotFound name base)

end Project
end Stowage
