/-
Where a package is installed, and which directory is its root.
-/
import Stowage.Package.Manifests
import Stowage.Package.Layout
import Stowage.Package.Specifier

namespace Stowage.Package

/-- Whether a manifest can be read in the directory and satisfies `test`. -/
def isDescribed (d : Disk) (test : Manifest → Bool) (dir : Path) : Query Bool := do
  match ← Query.outcome (Manifests.load d dir) with
  | .ok (some m) => return test m
  | _ => return false

/-- The first of some directories that satisfies `test`. -/
def firstWith (test : Path → Query Bool) : List Path → Query (Option Path)
  | [] => return none
  | dir :: rest => do if ← test dir then return some dir else firstWith test rest

/-- The root directory of the package `name` that the file or directory `entry` belongs to: the
nearest one called like the last part of the name that has a manifest, else the nearest one whose
manifest declares the name. -/
def rootDirectory (d : Disk) (name : String) (entry : Path) : Query (Option Path) := do
  let start? := if d.isDirectory entry then some entry else entry.parent?
  match start? with
  | none => return none
  | some start =>
    let isCalled (dir : Path) : Query Bool := do
      if dir.fileName = some (Specifier.basename name) then isDescribed d (fun _ => true) dir
      else return false
    match ← firstWith isCalled start.ancestors with
    | some dir => return some dir
    | none => firstWith (isDescribed d fun m => m.name.getD "" = name) start.ancestors

/-- The modules directories that are searched from `base`, the nearest first. -/
def modulesDirs (base : Path) : List Path :=
  (base.ancestors.filter fun dir => !isModulesDir dir).map (· / modulesDir)

/-- The place where the package `name` is installed for `base`. It may be a link, which is not
followed. -/
def locate (d : Disk) (name : String) (base : Path) : Option Path :=
  ((modulesDirs base).map (· / name)).find? d.hasName

end Stowage.Package
