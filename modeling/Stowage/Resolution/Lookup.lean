/-
The files that a specifier names as the runtime looks for them: a file with or without an extension,
the main file or the index of a directory, and the modules directories of all parents.
-/
import Stowage.Disk.Basic
import Stowage.Json.Reader
import Stowage.Package.Layout
import Stowage.Package.Specifier
import Stowage.Manifest

namespace Stowage

/-- What a specifier stands for. -/
inductive Resolution where
  /-- A module of the runtime. -/
  | builtin (name : String)
  /-- A file, by its absolute path without links. -/
  | file (path : Path)
  deriving DecidableEq, Inhabited

namespace Lookup

/-- The extensions that are tried in order. -/
def extensions : List String := ["ts", "tsx", "js", "jsx", "json", "node"]

/-- A lookup fails, finds nothing, or finds a path. -/
abbrev Found := Except Unit (Option Path)

namespace Found

/-- What `next` finds when nothing was found before. -/
def orElse (first : Found) (next : Unit → Found) : Found :=
  match first with
  | .ok none => next ()
  | r => r

end Found

/-- The file that a path names, an extension may be missing. -/
def file (d : Disk) (p : Path) : Option Path :=
  if d.isFile p then some p
  else match p.fileName with
    | none => none
    | some name => (extensions.map fun e => p.withFileName (name ++ "." ++ e)).find? d.isFile

/-! ## Directories -/

/-- The replacement of a package for the browser: a path, or paths and switches by name. -/
def isReplacement : Json → Bool
  | .null => true
  | .string _ => true
  | .object members => members.all fun m => match m.2 with
    | .string _ => true
    | .bool _ => true
    | _ => false
  | _ => false

open Json in
/-- The fields of a manifest that matter here, as a record of its own. -/
def mainFields : List (FieldReader (Option String)) := [
  ⟨"main", false, fun _ cs => asOption asString cs⟩,
  ⟨"browser", false, fun main cs => do
    let (v, r) ← valueWith id (depthLimit - 1) cs
    if isReplacement v then return (main, r) else throw .mismatched⟩]

/-- The main file that a manifest names. -/
def mainOf (d : Disk) (manifest : Path) : Except Unit (Option String) :=
  match d.readText manifest with
  | .error _ => .error ()
  | .ok text =>
    match Json.parse (Json.record mainFields none) text with
    | .ok main => .ok main
    | .error _ => .error ()

/-- The index file of a directory. -/
def index (d : Disk) (dir : Path) : Option Path :=
  (extensions.map fun e => dir / ("index." ++ e)).find? d.isFile

/-- The file that a directory stands for. The main file of a manifest may be a directory again, `fuel`
bounds how often. -/
def directory (d : Disk) : Nat → Path → Found
  | 0, _ => .error ()
  | fuel + 1, dir =>
    let main : Found :=
      if d.isFile (dir / manifestName) then do
        match ← mainOf d (dir / manifestName) with
        | none => return none
        | some target =>
          let p := dir / target
          match file d p with
          | some f => return some f
          | none => directory d fuel p
      else .ok none
    main.orElse fun _ => .ok (index d dir)

/-- What a path stands for, as a file or as a directory. A chain of main files that goes on for longer
than there are entries comes back to a directory it has been to. -/
def path (d : Disk) (p : Path) : Found :=
  match file d p with
  | some f => .ok (some f)
  | none => directory d (d.entries.length + 1) p

/-- What a specifier stands for in the modules directories of some directories. -/
def inModules (d : Disk) (specifier : String) : List Path → Found
  | [] => .ok none
  | dir :: rest =>
    let modules := dir / Package.modulesDir
    if d.isDirectory modules then
      (path d (modules / specifier)).orElse fun _ => inModules d specifier rest
    else inModules d specifier rest

/-! ## Specifiers -/

/-- The modules of the runtime that this lookup does not know. -/
def unknownModules : List String :=
  ["inspector/promises", "readline/promises", "stream/consumers", "stream/web", "wasi"]

/-- The modules of the runtime that need no file. -/
def isCore (specifier : String) : Bool :=
  Specifier.runtimeModules.contains specifier && !unknownModules.contains specifier

/-- Looks a specifier up from a file or a directory. -/
def find (d : Disk) (base : Path) (specifier : String) : Option Resolution :=
  if isCore specifier then some (.builtin specifier)
  else
    let dir := if d.isFile base then base.parent?.getD ⟨"."⟩ else base
    let target : Path := ⟨specifier⟩
    let found : Found := match target.components.head? with
      | some .root => path d target
      | some .here => path d (dir / specifier)
      | some .up => path d (dir / specifier)
      | _ => inModules d specifier dir.ancestors
    match found with
    | .ok (some p) => (d.canonicalize p).toOption.map Resolution.file
    | _ => none

end Lookup
end Stowage
