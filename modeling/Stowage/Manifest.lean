/-
Package manifests: the fields of a `package.json` that packaging reads, and where the manifest of a
location is kept.
-/
import Stowage.Error
import Stowage.Json.Printer

namespace Stowage

/-- The file name of package manifests. -/
def manifestName : String := "package.json"

structure Manifest where
  name : Option String
  version : Option String
  license : Option Json
  isPrivate : Option Bool
  main : Option String
  moduleType : Option String
  files : Option (List String)
  dependencies : List (String × String)
  optionalDependencies : List (String × String)
  /-- Patterns of the directories that belong to the workspace. -/
  workspaces : Option (List String)
  exported : Option Json
  scripts : List (String × String)
  /-- The file that the manifest was read from. -/
  path : Path
  deriving Inhabited

namespace Manifest

/-! ## Reading -/

/-- The manifest with nothing in it. -/
def empty : Manifest := ⟨none, none, none, none, none, none, none, [], [], none, none, [], ⟨""⟩⟩

/-- The strings of a list of strings. -/
def stringItems? : List Json → Option (List String)
  | [] => some []
  | .string s :: r => (stringItems? r).map (s :: ·)
  | _ => none

def strings? : Json → Option (List String)
  | .array items => stringItems? items
  | _ => none

/-- Workspace patterns: a list of them, or an object with the list as its `packages`, which may be left
out. -/
def patternList? : Json → Option (List String)
  | .array items => stringItems? items
  | .object members => match members.filter (·.1 = "packages") with
    | [] => some []
    | [(_, v)] => strings? v
    | _ => none
  | _ => none

open Json in
/-- Takes a choice between the forms of workspace patterns. -/
def workspaceGlobs : Reader (List String) := fun cs => do
  let (v, r) ← valueWith id (depthLimit - 1) cs
  match patternList? v with
  | some ps => return (ps, r)
  | none => throw .mismatched

open Json in
/-- The fields of a manifest in the order of a manifest written as a list. -/
def fields : List (FieldReader Manifest) :=
  let set {α : Type} (key : String) (mayEnd : Bool) (reader : Reader α)
      (update : Manifest → α → Manifest) : FieldReader Manifest :=
    ⟨key, mayEnd, fun m cs => do
      let (x, r) ← reader cs
      return (update m x, r)⟩
  let anyValue := value (depthLimit - 1)
  [set "name" false (asOption asString) fun m x => { m with name := x },
   set "version" false (asOption asString) fun m x => { m with version := x },
   set "license" false (asOption anyValue) fun m x => { m with license := x },
   set "private" false (asOption asBool) fun m x => { m with isPrivate := x },
   set "main" false (asOption asString) fun m x => { m with main := x },
   set "type" false (asOption asString) fun m x => { m with moduleType := x },
   set "files" false (asOption (asList asString)) fun m x => { m with files := x },
   set "dependencies" true (asMap asString) fun m x => { m with dependencies := x },
   set "optionalDependencies" true (asMap asString)
     fun m x => { m with optionalDependencies := x },
   set "workspaces" false (asOption workspaceGlobs) fun m x => { m with workspaces := x },
   set "exports" false (asOption anyValue) fun m x => { m with exported := x },
   set "scripts" true (asMap asString) fun m x => { m with scripts := x }]

/-- Reads the manifest that `text` holds in the file `path`. -/
def parse (path : Path) (text : String) : Except Error Manifest :=
  match Json.parse (Json.record fields empty) text with
  | .ok m => .ok { m with path }
  | .error fault => .error (.manifestInvalid path fault)

/-! ## Fields -/

/-- The directory of the manifest. -/
def dir (m : Manifest) : Path := m.path.parent?.getD ⟨""⟩

/-- The names of the dependencies, the optional ones last. -/
def dependedOn (m : Manifest) : List String :=
  m.dependencies.map Prod.fst ++ m.optionalDependencies.map Prod.fst

def isOptional (m : Manifest) (name : String) : Bool :=
  m.optionalDependencies.any (·.1 = name)

end Manifest

/-- The manifest file of a location, which is a directory or a manifest file itself. -/
def manifestPath (location : Path) : Path :=
  if location.fileName = some manifestName then location else location / manifestName

end Stowage
