/-
Expansion: all files that a module brings in by its manifest, and those of the modules that it depends
on. Used for modules whose files cannot be found by tracing. Each module root is visited once.
-/
import Stowage.Project
import Stowage.Names
import Stowage.Glob.Expansion

namespace Stowage

structure ExpansionSettings where
  /-- Modules that may be missing. -/
  optionalModules : List String
  /-- Modules that are left out. -/
  exclude : List String
  deriving Inhabited

/-- What was expanded so far. -/
structure Expansion where
  /-- The names of files in the workspace. -/
  files : List String
  /-- The names of links in the workspace. -/
  extras : List String
  /-- The roots of the modules that were visited. -/
  visited : List Path
  warnings : List String
  deriving DecidableEq, Inhabited

namespace Expansion

def empty : Expansion := ⟨[], [], [], []⟩

def size (x : Expansion) : Nat := x.files.length + x.extras.length

/-- What was expanded and which manifests were read. -/
structure State where
  manifests : Manifests
  expansion : Expansion
  deriving Inhabited

end Expansion

abbrev Expand := ExceptT Error (StateM Expansion.State)

namespace Expand

variable {α : Type}

/-- A question as part of an expansion. -/
def ask (q : Query α) : Expand α := fun s =>
  let (result, manifests) := q.run.run s.manifests
  (result, { s with manifests })

def ofExcept (r : Except Error α) : Expand α := ask (Query.ofExcept r)

def change (f : Expansion → Expansion) : Expand Unit :=
  modify fun s => { s with expansion := f s.expansion }

def keepFile (name : String) : Expand Unit := change fun x =>
  { x with files := Names.insert name x.files }

def keepLink (name : String) : Expand Unit := change fun x =>
  { x with extras := Names.insert name x.extras }

def warn (message : String) : Expand Unit := change fun x =>
  { x with warnings := x.warnings ++ [message] }

variable (project : Project) (settings : ExpansionSettings) (d : Disk)

/-! ## The files of a module -/

/-- Keeps a file under its name in the workspace. -/
def addFile (path : Path) : Expand Unit := do keepFile (← ofExcept (project.relative path))

/-- Keeps a link under its name in the workspace. -/
def addLink (path : Path) : Expand Unit := do keepLink (← ofExcept (project.relative path))

/-- A path below a module root is left out: by a pattern, or since it only declares types. -/
def isOmitted (root : Path) (negated : List Glob.Pattern) (path : Path) : Bool :=
  let inside := (path.stripPrefix? root).getD path
  Package.isDeclaration path || negated.any (·.accepts Glob.levels inside.text)

/-- Adds one entry below a module root. -/
def addEntry (root : Path) (negated : List Glob.Pattern) (entry : Path × EntryType) : Expand Unit :=
  if isOmitted root negated entry.1 then return
  else match entry.2 with
    | .link => addLink project entry.1
    | .file => addFile project entry.1
    | .directory => return

/-- Adds a path with all that is below it. -/
def addAt (root : Path) (negated : List Glob.Pattern) (path : Path) : Expand Unit := do
  let entries ← ask (Query.ofDisk (d.tree path))
  entries.forM (addEntry project root negated)

/-- The patterns of a list that leave paths out, and the paths that the others match. -/
def matched (root : Path) : List String → Except Error (List Glob.Pattern × List Path)
  | [] => .ok ([], [])
  | text :: rest =>
    match text.toList with
    | '!' :: r => do
      let p ← Workspace.compilePattern (Path.bareText (String.ofList r))
      let (negated, paths) ← matched root rest
      return (p :: negated, paths)
    | _ => do
      let pattern := Glob.literal root.text ++ "/" ++ Path.bareText text
      let found ← (Glob.expand d Glob.levels pattern).mapError Error.pattern
      let (negated, paths) ← matched root rest
      return (negated, found.foldl (fun set p => p.insertOrdered set) paths)

/-- The specifier of the main file of a module, as seen from its root. -/
def mainSpecifier (m : Manifest) : String := "./" ++ Path.bareText (m.main.getD "index.js")

/-- Adds the main file of a module. A main file that is missing or elsewhere is no error. -/
def addMain (root : Path) (m : Manifest) : Expand Unit := do
  match ← ask (Query.outcome (project.resolve d root (mainSpecifier m))) with
  | .ok (.file path) =>
    if path.startsWith root then addFile project path else return
  | _ => return

/-- Adds the files below a module root that the manifest lists, or all. -/
def addAll (root : Path) (m : Manifest) : Expand Unit :=
  match m.files with
  | some patterns => do
    let (negated, paths) ← ofExcept (matched d root patterns)
    paths.forM (addAt project d root negated)
  | none => addAt project d root [] root

/-- Adds the files of a module, its manifest and its main file. -/
def addListed (root : Path) (m : Manifest) : Expand Unit := do
  addAll project d root m
  addFile project (root / manifestName)
  addMain project d root m

/-! ## Modules -/

/-- The way from the requested module to another one. -/
def route (parents : List String) (name : String) : String := " -> ".intercalate (parents ++ [name])

/-- A module may be missing for the module whose manifest is `parent`. -/
def mayMiss (name : String) (parent : Option Manifest) : Bool :=
  name.startsWith "@types/" || settings.optionalModules.contains name ||
    parent.any (·.isOptional name)

/-- Adds the place where a module is installed if that is a link. -/
def addPlace (name : String) (base : Path) : Expand Unit :=
  match Package.locate d name base with
  | some place => if d.isLink place then addLink project place else return
  | none => return

/-- The module that needs another one. -/
structure Needing where
  root : Path
  manifest : Manifest
  deriving Inhabited

/-- Passes over a module whose root cannot be told, if it may be missing. -/
def passOver (name : String) (needing : Option Needing) (parents : List String) (e : Error) :
    Expand Unit :=
  if e.isMissing then
    if mayMiss settings name (needing.map (·.manifest)) then
      warn ("skip missing module " ++ route parents name)
    else throw (.missingDependency name (route parents name))
  else throw e

/-- Visits the root of a module, as seen from `base`, and gives its manifest. -/
def visit (base root : Path) (name : String) : Expand Manifest := do
  change fun x => { x with visited := x.visited ++ [root] }
  let manifest ← ask (Manifests.require d root)
  addListed project d root manifest
  addPlace project d name base
  return manifest

/-- Expands a module and all it depends on. Every level visits a module root that was not visited
before, `levels` bounds their number, and `stop` is what is done beyond. -/
def module (stop : Expand Unit) (base : Path) :
    Nat → String → Option Needing → List String → Expand Unit
  | 0, _, _, _ => stop
  | levels + 1, name, needing, parents =>
    if settings.exclude.contains name then return
    else do
      match ← ask (Query.outcome (project.packageRoot d name base (needing.map (·.root)))) with
      | .ok (.builtin _) => return
      | .error e => passOver settings name needing parents e
      | .ok (.directory root) =>
        if (← get).expansion.visited.any (·.same root) then return
        else do
          let manifest ← visit project d ((needing.map (·.root)).getD base) root name
          manifest.dependedOn.forM fun dependency =>
            module stop base levels dependency (some ⟨root, manifest⟩) (parents ++ [name])

/-- Expands the module `name` as seen from `base`. The parents only serve messages. The root of a module
is a directory of what is stored on the disk, which bounds the number of levels. -/
def expand (name : String) (base : Path) (parents : List String) : Expand Unit :=
  module project settings d (throw (.file .other)) base (d.directories.length + 1) name none parents

/-- Expands some modules as seen from `base`, each with its parents, within some levels. -/
def expandWithin (stop : Expand Unit) (levels : Nat) (base : Path)
    (requests : List (String × List String)) : Expand Unit :=
  requests.forM fun r => module project settings d stop base levels r.1 none r.2

/-- Expands some modules as seen from `base`, each with its parents. -/
def expandAll (base : Path) (requests : List (String × List String)) : Expand Unit :=
  expandWithin project settings d (throw (.file .other)) (d.directories.length + 1) base requests

end Expand
end Stowage
